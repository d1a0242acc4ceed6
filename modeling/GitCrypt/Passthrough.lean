import GitCrypt.Runs
import GitCrypt.ReadOnly

/-! What the filters do with a content that is not encrypted, and when `status` takes it for
an encrypted one. -/
namespace GitCrypt
open Iostream Posix
variable {env : Env}

/-! ### The header -/

/-- A content that the filters copy. -/
def Unencrypted (input : Bytes) : Prop := input.length < headerLen ∨ input.take 10 ≠ fileMagic

private theorem not_unencrypted_iff {input : Bytes} :
    ¬ Unencrypted input ↔ headerLen ≤ input.length ∧ input.take 10 = fileMagic := by
  rw [Unencrypted, not_or, not_lt, not_not]

/-- The test of the filters after the read, which may be short. -/
private theorem header_read (input : Bytes) :
    (((IStream.ofBytes input).read headerLen).2.gcount ≠ headerLen ∨
      ((IStream.ofBytes input).read headerLen).1.take 10 ≠ fileMagic) ↔ Unencrypted input := by
  have hmin : min headerLen input.length ≠ headerLen ↔ input.length < headerLen := by omega
  have htake : (input.take headerLen).take 10 = input.take 10 := by rw [List.take_take]; rfl
  rw [IStream.read_of_good rfl, IStream.ofBytes_rest, Unencrypted, htake]
  exact or_congr_left hmin

theorem decryptOrCopy_copies {input : Bytes} (h : Unencrypted input) (warning : List String) (P : Primitives)
    (keyFile : KeyFile) : decryptOrCopy warning P keyFile (.ofBytes input) =
      ⟨.ok 0, (OStream.write {} (input.take headerLen)).insertRdbuf (input.drop headerLen), warning, []⟩ := by
  unfold decryptOrCopy
  dsimp only
  rw [if_pos ((header_read input).mpr h), IStream.read_of_good rfl]
  rfl

private theorem decryptOrCopy_decrypts {input : Bytes} (h : ¬ Unencrypted input) (warning : List String)
    (P : Primitives)
    (keyFile : KeyFile) : decryptOrCopy warning P keyFile (.ofBytes input) =
      decryptFileToStdout P keyFile ((IStream.ofBytes input).read headerLen).1
        ((IStream.ofBytes input).read headerLen).2 :=
  if_neg (mt (header_read input).mp h)

/-- The two pieces of the input are delivered, unless the second one is empty: inserting
nothing makes the stream fail, and then what is still in its buffer is lost. -/
private theorem delivered_copy (input : Bytes) (passed : Nat) :
    ((OStream.write {} (input.take headerLen)).insertRdbuf (input.drop headerLen)).delivered passed = input ↔
      input = [] ∨ headerLen < input.length ∨ input.length ≤ passed := by
  by_cases hrest : input.drop headerLen = []
  · have hle : input.length ≤ headerLen := List.drop_eq_nil_iff.mp hrest
    have hall : input.take headerLen = input := List.take_of_length_le hle
    have hcopy : (OStream.write {} (input.take headerLen)).insertRdbuf (input.drop headerLen) = ⟨input, true⟩ := by
      rw [hrest, hall]
      rfl
    rw [hcopy, OStream.delivered_eq_written_iff ⟨input, true⟩]
    constructor
    · rintro (hfail | hpassed)
      · cases hfail
      · exact .inr (.inr hpassed)
    · rintro (rfl | hlong | hpassed)
      · exact .inr (Nat.zero_le passed)
      · omega
      · exact .inr hpassed
  · have hlt : headerLen < input.length := not_le.mp fun hle => hrest (List.drop_eq_nil_iff.mpr hle)
    have hcopy : (OStream.write {} (input.take headerLen)).insertRdbuf (input.drop headerLen) = ⟨input, false⟩ := by
      rw [OStream.insertRdbuf, if_neg (by simp [OStream.write]), if_neg hrest, OStream.write]
      simp
    rw [hcopy]
    exact iff_of_true rfl (.inr (.inl hlt))

/-! ### The filters as git runs them -/

theorem loadKey_keepsStreams (keyName keyPath legacyPath : Option Bytes) :
    KeepsStreams (loadKey env keyName keyPath legacyPath) := by
  have hpath : KeepsStreams (getInternalKeyPath env keyName) :=
    .bind (.bind (.bind (execCommand_keepsStreams _) fun _ => .bind (.ite (.pure _) (.throw _)) fun _ => .pure _)
      fun _ => .pure _) fun _ => .pure _
  unfold loadKey
  split
  · refine .bind (readFile_keepsStreams _) fun contents => ?_
    cases contents with
    | none => exact .throw _
    | some bytes => exact loaded_keepsStreams _
  · refine .bind (readFile_keepsStreams _) fun contents => ?_
    cases contents with
    | none => exact .throw _
    | some bytes => exact loaded_keepsStreams _
  · refine .bind hpath fun path => .bind (readFile_keepsStreams _) fun contents => ?_
    cases contents with
    | none => exact .throw _
    | some bytes => exact loaded_keepsStreams _

/-- A command that is given a content: `smudge` on its standard input, or `diff` in a file. The
arguments are right, the key file is loaded and the content can be read. -/
inductive Given (P : Primitives) (env : Env) (repo : Repo) (input : Bytes) : Action Nat → Prop
  | smudge {args rest : List Bytes} {vars : PlumbingOptions} {legacyPath : Option Bytes} {keyFile : KeyFile} {w : World}
      (hargs : parsePlumbingOptions args = .ok (vars, rest)) (hlegacy : legacyKeyPath vars rest 0 = some legacyPath)
      (hload : loadKey env vars.keyName vars.keyFile legacyPath (repo.start env) = (.ok keyFile, w))
      (hinput : env.stdin = input) : Given P env repo input (smudge P env args)
  | diff {args rest : List Bytes} {vars : PlumbingOptions} {legacyPath : Option Bytes} {keyFile : KeyFile} {w : World}
      (hargs : parsePlumbingOptions args = .ok (vars, rest)) (hlegacy : legacyKeyPath vars rest 1 = some legacyPath)
      (hload : loadKey env vars.keyName vars.keyFile legacyPath (repo.start env) = (.ok keyFile, w))
      (hread : env.fails w.ops = false) (hinput : w.fs.readFile env.cwd (rest.getLastD []) = .ok input) :
      Given P env repo input (diff P env args)

/-- What a command given a content does, once the key file is loaded. -/
theorem Given.run_eq {P : Primitives} {repo : Repo} {input : Bytes} {m : Action Nat} (h : Given P env repo input m) :
    ∃ warning keyFile, (m (repo.start env)).1 = (decryptOrCopy warning P keyFile (.ofBytes input)).ending ∧
      (m (repo.start env)).2.cout = (OStream.append {} (decryptOrCopy warning P keyFile (.ofBytes input)).cout) := by
  cases h with
  | @smudge args rest vars legacyPath keyFile w hargs hlegacy hload hinput =>
    have hstreams := @loadKey_keepsStreams env vars.keyName vars.keyFile legacyPath (repo.start env)
    rw [hload] at hstreams
    obtain ⟨hcin, hcout⟩ := Prod.mk.inj hstreams
    refine ⟨notEncryptedWarning, keyFile, ?_⟩
    have hrun : GitCrypt.smudge P env args (repo.start env) = (smudgeWith P keyFile w.cin).perform w := by
      unfold GitCrypt.smudge filterStdin
      rw [hargs]
      dsimp only
      rw [hlegacy]
      exact Prog.bind_of_ok hload _
    rw [hrun, hcin, show (repo.start env).cin = .ofBytes input from hinput ▸ rfl]
    exact ⟨rfl, congrArg (OStream.append · _) hcout⟩
  | @diff args rest vars legacyPath keyFile w hargs hlegacy hload hread hinput =>
    have hstreams := @loadKey_keepsStreams env vars.keyName vars.keyFile legacyPath (repo.start env)
    rw [hload] at hstreams
    obtain ⟨-, hcout⟩ := Prod.mk.inj hstreams
    refine ⟨[], keyFile, ?_⟩
    have hrun : GitCrypt.diff P env args (repo.start env) = diffFile P env keyFile (rest.getLastD []) w := by
      unfold GitCrypt.diff
      rw [hargs]
      dsimp only
      rw [hlegacy]
      exact Prog.bind_of_ok hload _
    have hopen := @syscall_query_run env _ (.read (rest.getLastD [])) (fun fs => fs.readFile env.cwd (rest.getLastD [])) w
    rw [hread, hinput] at hopen
    rw [hrun, diffFile, Prog.bind_of_ok hopen]
    exact ⟨rfl, congrArg (OStream.append · _) hcout⟩

/-- Whatever the buffer of the standard output has passed on before the process exits, a content
that is not encrypted is copied to it whole exactly when it is empty, when it is longer than the
header of an encrypted file, or when the buffer has passed on all of it. -/
theorem copies_unencrypted_iff (passed : Nat) {P : Primitives} {repo : Repo} {input : Bytes} (hplain : Unencrypted input)
    {m : Action Nat} (h : Given P env repo input m) :
    (m (repo.start env)).1 = .ok 0 ∧ (m (repo.start env)).2.cout.delivered passed = input ↔
      input = [] ∨ headerLen < input.length ∨ input.length ≤ passed := by
  obtain ⟨warning, keyFile, hending, hcout⟩ := h.run_eq
  rw [decryptOrCopy_copies hplain] at hending hcout
  rw [hending, hcout]
  exact (and_iff_right rfl).trans (delivered_copy input passed)

/-- The key file of the default key, and a byte to be copied. -/
def byteEnv : Env := { freshEnv with stdin := [97] }

def byteRepo : Repo :=
  ⟨(do
    let fs ← freshRepo.fs.mkdir [] (str ".git/git-crypt")
    let fs ← fs.mkdir [] (str ".git/git-crypt/keys")
    fs.writeFile [] (str ".git/git-crypt/keys/default") fun _ => singleKeyFile.store).toOption.getD .empty, []⟩

private theorem given_byteEnv : Given plainPrimitives byteEnv byteRepo [97] (smudge plainPrimitives byteEnv []) := by
  have hload : (loadKey byteEnv none none none (byteRepo.start byteEnv)).1.isOk = true := by decide +kernel
  generalize hrun : loadKey byteEnv none none none (byteRepo.start byteEnv) = run at hload
  rcases run with ⟨e | keyFile, w⟩
  · cases hload
  · exact @Given.smudge plainPrimitives byteEnv byteRepo [97] [] [] {} none keyFile w rfl rfl hrun rfl

theorem copies_unencrypted_byteEnv :
    (smudge plainPrimitives byteEnv [] (byteRepo.start byteEnv)).1 = .ok 0 ∧
      (smudge plainPrimitives byteEnv [] (byteRepo.start byteEnv)).2.cout.delivered 1 = [97] :=
  (copies_unencrypted_iff 1 (.inl (by decide)) given_byteEnv).mpr (.inr (.inr (by decide)))

/-- The byte stays in the buffer. -/
theorem copy_loses_byte : Unencrypted [97] ∧
    Given plainPrimitives byteEnv byteRepo [97] (smudge plainPrimitives byteEnv []) ∧
    (smudge plainPrimitives byteEnv [] (byteRepo.start byteEnv)).1 = .ok 0 ∧
    (smudge plainPrimitives byteEnv [] (byteRepo.start byteEnv)).2.cout.delivered 0 = [] := by
  refine ⟨.inl (by decide), given_byteEnv, ?_⟩
  obtain ⟨warning, keyFile, hending, hcout⟩ := given_byteEnv.run_eq
  rw [decryptOrCopy_copies (.inl (by decide))] at hending hcout
  rw [hending, hcout]
  exact ⟨rfl, rfl⟩

/-! ### The test of `status` -/

/-- `check_if_blob_is_encrypted` on what `git cat-file` prints. -/
def checkIfBlobIsEncrypted (blob : Bytes) : Bool :=
  let (header, output) := (outputStream blob).read 10
  output.gcount = 10 && header = fileMagic

private theorem checkIfBlobIsEncrypted_iff {blob : Bytes} :
    checkIfBlobIsEncrypted blob = true ↔ blob.take 10 = fileMagic := by
  cases blob with
  | nil => decide
  | cons b blob =>
    have hread := IStream.read_of_good (s := outputStream (b :: blob)) rfl 10
    unfold checkIfBlobIsEncrypted
    rw [hread]
    simp only [Bool.and_eq_true, decide_eq_true_eq]
    refine ⟨And.right, fun hmagic => ⟨?_, hmagic⟩⟩
    have hlength := congrArg List.length hmagic
    rwa [List.length_take, length_fileMagic] at hlength

/-- A filter goes on to `decrypt_file_to_stdout` with the header it has read. -/
def TakesDecryptingPath (filter : Primitives → KeyFile → IStream → FilterRun) (blob : Bytes) : Prop :=
  ∀ P keyFile, filter P keyFile (.ofBytes blob) = decryptFileToStdout P keyFile
    ((IStream.ofBytes blob).read headerLen).1 ((IStream.ofBytes blob).read headerLen).2

/-- A copy returns 0, and a decryption without a key does not. -/
theorem takesDecryptingPath_iff (warning : List String) (blob : Bytes) :
    TakesDecryptingPath (decryptOrCopy warning) blob ↔ headerLen ≤ blob.length ∧ blob.take 10 = fileMagic := by
  rw [← not_unencrypted_iff]
  constructor
  · intro h hplain
    have hempty := h plainPrimitives .empty
    rw [decryptOrCopy_copies hplain] at hempty
    have hending := congrArg FilterRun.ending hempty
    cases hending
  · exact fun h P keyFile => decryptOrCopy_decrypts h warning P keyFile

/-- `status` and the filters agree on a content unless it begins like an encrypted file but is
too short to have a whole header. -/
theorem status_agrees_iff (blob : Bytes) :
    ((checkIfBlobIsEncrypted blob = true ↔ TakesDecryptingPath smudgeWith blob) ∧
      (checkIfBlobIsEncrypted blob = true ↔ TakesDecryptingPath diffWith blob)) ↔
      (blob.take 10 = fileMagic → headerLen ≤ blob.length) := by
  have hpath (warning : List String) : (checkIfBlobIsEncrypted blob = true ↔
      TakesDecryptingPath (decryptOrCopy warning) blob) ↔ (blob.take 10 = fileMagic → headerLen ≤ blob.length) := by
    rw [checkIfBlobIsEncrypted_iff, takesDecryptingPath_iff]
    tauto
  rw [smudgeWith, diffWith, hpath, hpath, and_self_iff]

/-- The magic alone: `status` takes it for an encrypted file, and the filters copy it. -/
theorem status_disagrees_magic : checkIfBlobIsEncrypted fileMagic = true ∧
    ¬ TakesDecryptingPath smudgeWith fileMagic ∧ ¬ TakesDecryptingPath diffWith fileMagic := by
  have hshort : ¬ (headerLen ≤ fileMagic.length ∧ fileMagic.take 10 = fileMagic) := by decide
  refine ⟨by decide, fun h => hshort ?_, fun h => hshort ?_⟩
  · exact (takesDecryptingPath_iff notEncryptedWarning fileMagic).mp h
  · exact (takesDecryptingPath_iff [] fileMagic).mp h

end GitCrypt
