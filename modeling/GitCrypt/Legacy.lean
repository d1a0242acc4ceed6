import GitCrypt.KeyRoundTrip
import GitCrypt.KeyCommands
import GitCrypt.Runs

/-! Legacy key files: which byte strings they are, and that the filters do the same with a
legacy key file and with what `migrate_key` makes of it. -/
namespace GitCrypt
open Iostream Posix
variable {env : Env}

/-- The key file in a legacy file that is read whole. -/
def loadLegacyBytes (b : Bytes) : Except KeyError KeyFile :=
  match KeyFile.empty.loadLegacy (.ofBytes b) with
  | (kf, .ok _) => .ok kf
  | (_, .error e) => .error e

/-- The AES key stands before the HMAC key. -/
def legacyEntry (b : Bytes) : Entry :=
  ⟨0, Buffer.ofBytes (b.take aesKeyLen), Buffer.ofBytes ((b.drop aesKeyLen).take hmacKeyLen)⟩

def legacyKeyFile (b : Bytes) : KeyFile := KeyFile.empty.add (legacyEntry b)

/-- A read that finds what it asks for. -/
private theorem read_of_le (rest : Bytes) {n : Nat} (h : n ≤ rest.length) (g : Nat) :
    (⟨rest, false, false, g⟩ : IStream).read n = (rest.take n, ⟨rest.drop n, false, false, n⟩) := by
  rw [IStream.read_of_good rfl]
  simp [h]

/-- The last test of the legacy format: nothing may follow the keys. -/
private theorem loadLegacy_of_ge (e : Entry) (version : UInt32) {b : Bytes} (h : 96 ≤ b.length) :
    e.loadLegacy version (.ofBytes b) =
      (⟨version, e.aesKey.blit 0 (b.take 32), e.hmacKey.blit 0 ((b.drop 32).take 64)⟩,
        if b.drop 96 = [] then .ok ⟨[], true, false, 0⟩ else .error .malformed) := by
  have haes : (IStream.ofBytes b).read aesKeyLen = (b.take 32, ⟨b.drop 32, false, false, 32⟩) :=
    read_of_le b (show 32 ≤ b.length by omega) 0
  have hhmac := read_of_le (b.drop 32) (show 64 ≤ (b.drop 32).length by rw [List.length_drop]; omega) 32
  rw [List.drop_drop, show 32 + 64 = 96 from rfl] at hhmac
  unfold Entry.loadLegacy
  rw [haes]
  simp only [ne_eq, not_true_eq_false, if_false, hhmac]
  cases b.drop 96 with
  | nil => rfl
  | cons c rest => rfl

theorem loadLegacy_of_length {b : Bytes} (h : b.length = 96) :
    ∃ rest, KeyFile.empty.loadLegacy (.ofBytes b) = (legacyKeyFile b, .ok rest) := by
  refine ⟨⟨[], true, false, 0⟩, ?_⟩
  rw [KeyFile.loadLegacy, loadLegacy_of_ge _ _ h.ge, if_pos (List.drop_of_length_le h.le)]
  rfl

private theorem loadLegacy_of_length_ne {b : Bytes} (h : b.length ≠ 96) :
    ∃ kf, KeyFile.empty.loadLegacy (.ofBytes b) = (kf, .error .malformed) := by
  suffices ∃ e, (KeyFile.empty.slot 0).loadLegacy 0 (.ofBytes b) = (e, .error .malformed) by
    obtain ⟨e, he⟩ := this
    exact ⟨_, by rw [KeyFile.loadLegacy, he]⟩
  rcases lt_or_gt_of_ne h with hlt | hgt
  · unfold Entry.loadLegacy
    rw [IStream.read_of_good rfl, IStream.ofBytes_rest]
    by_cases haes : b.length < 32
    · have hne : min aesKeyLen b.length ≠ aesKeyLen := by simp only [aesKeyLen]; omega
      exact ⟨_, if_pos hne⟩
    · have haes' : min aesKeyLen b.length = aesKeyLen := by simp only [aesKeyLen]; omega
      have hshort : decide (b.length < aesKeyLen) = false := decide_eq_false haes
      simp only [haes', ne_eq, not_true_eq_false, if_false, hshort]
      rw [IStream.read_of_good rfl]
      have hne : min hmacKeyLen (b.drop aesKeyLen).length ≠ hmacKeyLen := by
        simp only [hmacKeyLen, aesKeyLen, List.length_drop]
        omega
      exact ⟨_, if_pos hne⟩
  · have hmore : b.drop 96 ≠ [] := by
      rw [ne_eq, List.drop_eq_nil_iff]
      omega
    exact ⟨_, by rw [loadLegacy_of_ge _ _ hgt.le, if_neg hmore]⟩

/-- The legacy format is the strings of one length. -/
private theorem loadLegacyBytes_ok_iff {b : Bytes} : (∃ kf, loadLegacyBytes b = .ok kf) ↔ b.length = 96 := by
  constructor
  · rintro ⟨kf, h⟩
    by_contra hne
    obtain ⟨kf', hkf⟩ := loadLegacy_of_length_ne hne
    rw [loadLegacyBytes, hkf] at h
    cases h
  · intro h
    obtain ⟨rest, hkf⟩ := loadLegacy_of_length h
    exact ⟨legacyKeyFile b, by rw [loadLegacyBytes, hkf]⟩

/-! ### Migration -/

/-- What is read from a file name, `-` being the standard input. -/
def GivenAs (env : Env) (r : Repo) (keyFileName b : Bytes) : Prop :=
  if keyFileName = str "-" then env.stdin = b else r.fs.readFile env.cwd keyFileName = .ok b

/-- What a finished process has left under a file name, `-` being the standard output. -/
def WrittenAs (env : Env) (w : World) (keyFileName b : Bytes) : Prop :=
  if keyFileName = str "-" then w.cout.written = b else w.fs.readFile env.cwd keyFileName = .ok b

theorem WrittenAs.unique {w : World} {keyFileName b b' : Bytes} (h : WrittenAs env w keyFileName b)
    (h' : WrittenAs env w keyFileName b') : b = b' := by
  unfold WrittenAs at h h'
  split_ifs at h h' with hdash
  · exact h.symm.trans h'
  · exact Except.ok.inj (h.symm.trans h')

theorem loadLegacyKeyFile_spec {r : Repo} {keyFileName b : Bytes} (hb : b.length = 96)
    (hgiven : GivenAs env r keyFileName b) :
    Triple (· = r.start env) (loadLegacyKeyFile env keyFileName)
      (fun kf w => w.cout = {} ∧ ∀ k, kf = some k → k = legacyKeyFile b) fun _ _ => True := by
  obtain ⟨rest, hload⟩ := loadLegacy_of_length hb
  have hreturn : Triple (fun w => w.cout = {})
      (do return some (← loaded (KeyFile.empty.loadLegacy (.ofBytes b))) : Action (Option KeyFile))
      (fun kf w => w.cout = {} ∧ ∀ k, kf = some k → k = legacyKeyFile b) fun _ _ => True := by
    rw [loaded_of_ok hload]
    exact fun w hw => ⟨hw, by simp⟩
  unfold GivenAs at hgiven
  refine .ite (fun hdash => ?_) fun hfile => ?_
  · rw [if_pos hdash] at hgiven
    refine .bind (R := fun a w => w.cout = {} ∧ a.cin = .ofBytes b) ?_ fun a => ?_
    · rintro w rfl
      exact ⟨rfl, by rw [← hgiven]; rfl⟩
    · rintro w ⟨hw, hcin⟩
      rw [hcin]
      exact hreturn w hw
  · rw [if_neg hfile] at hgiven
    refine .bind (R := fun a w => w.cout = {} ∧ ∀ bytes, a = some bytes → bytes = b) ?_ fun a => ?_
    · rintro w rfl
      rw [readFile_run hgiven]
      split_ifs
      · exact ⟨rfl, by simp⟩
      · exact ⟨rfl, by simp⟩
    · cases a with
      | none => exact .pure fun w hw => ⟨hw.1, by simp⟩
      | some bytes =>
        rintro w ⟨hw, hbytes⟩
        rw [hbytes bytes rfl]
        exact hreturn w hw

/-- A key file that was put out with exit status 0 stands in full where it was asked for. -/
theorem outputKeyFile_spec (keyFile : KeyFile) (outFileName : Bytes) :
    Triple (fun w => w.cout = {}) (outputKeyFile env keyFile outFileName)
      (fun status w => status = 0 → WrittenAs env w outFileName keyFile.store) fun _ _ => True := by
  unfold WrittenAs
  refine .ite (fun hdash => ?_) fun hfile => ?_
  · simp only [if_pos hdash]
    intro w hw _
    change (w.cout.write keyFile.store).written = keyFile.store
    rw [hw]
    rfl
  · simp only [if_neg hfile]
    refine .bind (Triple.pre (storeToFile_contents keyFile outFileName) fun _ _ => trivial) fun ok => ?_
    exact .ite (fun hok => .pure fun w hw _ => hw hok) fun _ => leave_triple fun _ _ => by simp

/-- What `migrate_key` makes of a legacy file is the stored form of the same key. -/
theorem migrateKey_written {r : Repo} {old new b : Bytes} {w : World} (hb : b.length = 96)
    (hgiven : GivenAs env r old b) (h : migrateKey env [old, new] (r.start env) = (.ok 0, w)) :
    WrittenAs env w new (legacyKeyFile b).store := by
  have hspec : Triple (· = r.start env) (migrateKey env [old, new])
      (fun status w => status = 0 → WrittenAs env w new (legacyKeyFile b).store) fun _ _ => True := by
    refine .tryCatch (R := fun _ _ => True) (.bind (loadLegacyKeyFile_spec hb hgiven) fun kf => ?_) fun e => ?_
    · cases kf with
      | none => exact leave_triple fun _ _ => by simp
      | some kf =>
        rintro w ⟨hw, hkf⟩
        rw [← hkf kf rfl]
        exact outputKeyFile_spec kf new w hw
    · split
      · exact leave_triple fun _ _ => by simp
      · exact .throw fun _ _ => trivial
  exact Triple.ok hspec rfl h rfl

/-! ### The filters -/

/-- Either way of giving a file makes one read and then loads what was read. -/
private theorem readAndLoad_run {w : World} {path b : Bytes} (load : Bytes → KeyFile × Except KeyError IStream)
    {kf : KeyFile} {rest : IStream} (h : w.fs.readFile env.cwd path = .ok b) (hload : load b = (kf, .ok rest))
    (e : Exception) :
    ((do match ← readFile env path with
      | none => throw e
      | some bytes => loaded (load bytes)) : Action KeyFile) w =
      if env.fails w.ops then (.error e, w.note (.called (.read path) false))
      else (.ok kf, w.note (.called (.read path) true)) := by
  rw [Prog.bind_apply, readFile_run h]
  split_ifs
  · rfl
  · change loaded (load b) _ = _
    rw [loaded_of_ok hload]
    rfl

def unableToOpen (path : Bytes) : Exception := .error (str "Unable to open key file: " ++ path)

private theorem loadKey_legacy {w : World} {path b : Bytes} (h : w.fs.readFile env.cwd path = .ok b)
    (hb : b.length = 96) (keyName keyPath : Option Bytes) :
    loadKey env keyName keyPath (some path) w =
      if env.fails w.ops then (.error (unableToOpen path), w.note (.called (.read path) false))
      else (.ok (legacyKeyFile b), w.note (.called (.read path) true)) := by
  obtain ⟨rest, hload⟩ := loadLegacy_of_length hb
  exact readAndLoad_run (fun b => KeyFile.empty.loadLegacy (.ofBytes b)) h hload _

private theorem loadKey_keyFile {w : World} {path : Bytes} {kf : KeyFile} (hs : kf.Storable)
    (h : w.fs.readFile env.cwd path = .ok kf.store) (keyName : Option Bytes) :
    loadKey env keyName (some path) none w =
      if env.fails w.ops then (.error (unableToOpen path), w.note (.called (.read path) false))
      else (.ok kf, w.note (.called (.read path) true)) := by
  obtain ⟨rest, hload⟩ := KeyFile.load_of_loadBytes (KeyFile.loadBytes_store hs)
  exact readAndLoad_run (fun b => KeyFile.empty.load (.ofBytes b)) h hload _

/-- The rest of a filter sees nothing of how its key file was asked for. -/
private theorem outcome_loadKey {w : World} {old new b : Bytes} (hb : b.length = 96)
    (hold : w.fs.readFile env.cwd old = .ok b)
    (hnew : w.fs.readFile env.cwd new = .ok (legacyKeyFile b).store) (keyName : Option Bytes)
    {k : KeyFile → Action Nat}
    (hk : ∀ e e', outcome (k (legacyKeyFile b)) (w.note e) = outcome (k (legacyKeyFile b)) (w.note e')) :
    outcome (loadKey env none none (some old) >>= k) w =
      outcome (loadKey env keyName (some new) none >>= k) w := by
  have hs : (legacyKeyFile b).Storable := Or.inl rfl
  unfold outcome
  rw [Prog.bind_apply, Prog.bind_apply, loadKey_legacy hold hb, loadKey_keyFile hs hnew]
  by_cases hf : env.fails w.ops
  · rw [if_pos hf, if_pos hf]
    rfl
  · rw [if_neg hf, if_neg hf]
    exact hk _ _

theorem outcome_filterStdin {w : World} {old new b usage : Bytes} (hb : b.length = 96)
    (hold : w.fs.readFile env.cwd old = .ok b)
    (hnew : w.fs.readFile env.cwd new = .ok (legacyKeyFile b).store)
    (filter : KeyFile → IStream → FilterRun) {args args' : List Bytes} {keyName : Option Bytes}
    (hargs : parsePlumbingOptions args = .ok ({}, [old]))
    (hargs' : parsePlumbingOptions args' = .ok (⟨keyName, some new⟩, [])) :
    outcome (filterStdin env usage filter args) w = outcome (filterStdin env usage filter args') w := by
  unfold filterStdin
  rw [hargs, hargs']
  exact outcome_loadKey hb hold hnew keyName fun _ _ => rfl

private theorem outcome_diff (P : Primitives) {w : World} {old new b filename : Bytes} (hb : b.length = 96)
    (hold : w.fs.readFile env.cwd old = .ok b)
    (hnew : w.fs.readFile env.cwd new = .ok (legacyKeyFile b).store)
    {args args' : List Bytes} {keyName : Option Bytes}
    (hargs : parsePlumbingOptions args = .ok ({}, [old, filename]))
    (hargs' : parsePlumbingOptions args' = .ok (⟨keyName, some new⟩, [filename])) :
    outcome (diff P env args) w = outcome (diff P env args') w := by
  unfold diff
  rw [hargs, hargs']
  exact outcome_loadKey hb hold hnew keyName fun e e' => outcome_diffFile P _ _ rfl rfl rfl

/-- A legacy key file is any string of 96 bytes. With one, given as the deprecated argument,
the filters write and return what they do with the file `migrate_key` made of it, given by
`--key-file`: on every input, and whatever file operation fails. -/
theorem legacy_equivalence :
    (∀ b, (∃ kf, loadLegacyBytes b = .ok kf) ↔ b.length = 96) ∧
    ∀ (env₀ : Env) (r₀ : Repo) (old₀ new₀ b migrated : Bytes) (w₀ : World), b.length = 96 →
      GivenAs env₀ r₀ old₀ b → migrateKey env₀ [old₀, new₀] (r₀.start env₀) = (.ok 0, w₀) →
      WrittenAs env₀ w₀ new₀ migrated →
      ∀ (P : Primitives) (env : Env) (r : Repo) (old new filename : Bytes) (keyName : Option Bytes),
        r.fs.readFile env.cwd old = .ok b → r.fs.readFile env.cwd new = .ok migrated →
        (∀ args args', parsePlumbingOptions args = .ok ({}, [old]) →
          parsePlumbingOptions args' = .ok (⟨keyName, some new⟩, []) →
          outcome (clean P env args) (r.start env) = outcome (clean P env args') (r.start env) ∧
            outcome (smudge P env args) (r.start env) = outcome (smudge P env args') (r.start env)) ∧
        (∀ args args', parsePlumbingOptions args = .ok ({}, [old, filename]) →
          parsePlumbingOptions args' = .ok (⟨keyName, some new⟩, [filename]) →
          outcome (diff P env args) (r.start env) = outcome (diff P env args') (r.start env)) := by
  refine ⟨fun b => loadLegacyBytes_ok_iff, ?_⟩
  intro env₀ r₀ old₀ new₀ b migrated w₀ hb hgiven hmigrate hwritten P env r old new filename keyName
    hold hnew
  obtain rfl : migrated = (legacyKeyFile b).store :=
    hwritten.unique (migrateKey_written hb hgiven hmigrate)
  refine ⟨fun args args' hargs hargs' => ⟨?_, ?_⟩, fun args args' hargs hargs' => ?_⟩
  · exact outcome_filterStdin hb hold hnew _ hargs hargs'
  · exact outcome_filterStdin hb hold hnew _ hargs hargs'
  · exact outcome_diff P hb hold hnew hargs hargs'

/-- The keys of zeroes, in the old form. -/
def zeroLegacy : Bytes := List.replicate 96 0

/-- A tree with a legacy key file and its migrated form. -/
def migratedRepo : Repo where
  fs := ((FileSystem.empty.writeFile [] (str "old") fun _ => zeroLegacy).bind fun fs =>
    fs.writeFile [] (str "new") fun _ => (legacyKeyFile zeroLegacy).store).toOption.getD .empty
  config := []

/-- Migrated from standard input to standard output, then used to encrypt. -/
theorem legacy_equivalence_zero :
    let env := { freshEnv with stdin := str "hello" }
    outcome (clean plainPrimitives env [str "old"]) (migratedRepo.start env) =
      outcome (clean plainPrimitives env [str "--key-file=new"]) (migratedRepo.start env) := by
  intro env
  let env₀ := { freshEnv with stdin := zeroLegacy }
  have hgiven : GivenAs env₀ freshRepo (str "-") zeroLegacy := rfl
  have hmigrate : migrateKey env₀ [str "-", str "-"] (freshRepo.start env₀) =
      (.ok 0, (migrateKey env₀ [str "-", str "-"] (freshRepo.start env₀)).2) :=
    Prod.ext (by decide +kernel) rfl
  have hlength : zeroLegacy.length = 96 := by decide
  have h := legacy_equivalence.2 env₀ freshRepo (str "-") (str "-") zeroLegacy _ _ hlength hgiven hmigrate
    (migrateKey_written hlength hgiven hmigrate) plainPrimitives env migratedRepo (str "old") (str "new") []
    none (by decide +kernel) (by decide +kernel)
  exact (h.1 [str "old"] [str "--key-file=new"] (by decide +kernel) (by decide +kernel)).1

end GitCrypt
