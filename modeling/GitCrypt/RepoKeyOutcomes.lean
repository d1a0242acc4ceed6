import GitCrypt.Runs
import GitCrypt.Sharing

/-! What `decrypt_repo_key` makes of the files of one key, and `decrypt_repo_keys` of those of
all keys: for each file, whether it is there and whether gpg decrypts it. -/
namespace GitCrypt
open Iostream Posix
variable {env : Env} {r : Repo} {ops : Nat} {E : Exception → World → Prop}

/-! ### One file -/

/-- What comes of the file for one secret key. -/
inductive FileOutcome where
  | absent
  | gpgFails
  | decrypts (contents : Bytes)
  deriving DecidableEq

namespace FileOutcome

def Decrypts (o : FileOutcome) : Prop := ∃ contents, o = decrypts contents

/-- The operations that a file takes: checking for it, and asking for gpg and running it. -/
def operations : FileOutcome → Nat
  | absent => 1
  | gpgFails => 3
  | decrypts _ => 3

end FileOutcome

/-- The outcome for a file when no operation fails. -/
def fileOutcome (env : Env) (r : Repo) (path : Bytes) : FileOutcome :=
  match r.fs.stat env.cwd path, decryptedContents env r path with
  | .error _, _ => .absent
  | .ok _, none => .gpgFails
  | .ok _, some contents => .decrypts contents

/-- The outcome for a file that is come to after so many operations. -/
def outcomeAt (env : Env) (r : Repo) (ops : Nat) (path : Bytes) : FileOutcome :=
  if env.fails ops then .absent
  else match fileOutcome env r path with
    | .decrypts contents => if env.fails (ops + 2) then .gpgFails else .decrypts contents
    | o => o

/-- The outcomes for the files of a key, one after another. -/
def outcomesAt (env : Env) (r : Repo) : Nat → List Bytes → List FileOutcome
  | _, [] => []
  | ops, path :: paths =>
    outcomeAt env r ops path :: outcomesAt env r (ops + (outcomeAt env r ops path).operations) paths

/-- What gpg's failure is reported as. -/
def decryptFailure : Exception := .gpgError (str "Failed to decrypt")

/-- The repository as it was, after so many operations. -/
def Reached (r : Repo) (ops : Nat) (w : World) : Prop := w.toRepo = r ∧ w.ops = ops

/-- What `access` answers. -/
def accessAt (env : Env) (r : Repo) (ops : Nat) (path : Bytes) : Except Errno Unit :=
  if env.fails ops then .error .eio else (r.fs.stat env.cwd path).map fun _ => ()

private theorem outcomeAt_of_absent {path : Bytes} {e : Errno} (h : accessAt env r ops path = .error e) :
    outcomeAt env r ops path = .absent := by
  unfold accessAt at h
  unfold outcomeAt fileOutcome
  by_cases hfails : env.fails ops = true
  · exact if_pos hfails
  · rw [if_neg hfails] at h ⊢
    cases hstat : r.fs.stat env.cwd path with
    | error e => rfl
    | ok node =>
      rw [hstat] at h
      cases h

private theorem outcomeAt_of_present {path : Bytes} (h : accessAt env r ops path = .ok ()) :
    outcomeAt env r ops path = match decryptedContents env r path with
      | none => .gpgFails
      | some contents => if env.fails (ops + 2) then .gpgFails else .decrypts contents := by
  unfold accessAt at h
  unfold outcomeAt fileOutcome
  by_cases hfails : env.fails ops = true
  · rw [if_pos hfails] at h
    cases h
  · rw [if_neg hfails] at h ⊢
    cases hstat : r.fs.stat env.cwd path with
    | error e =>
      rw [hstat] at h
      cases h
    | ok node => cases decryptedContents env r path <;> rfl

private theorem access_reached (path : Bytes) :
    Triple (Reached r ops) (access env path)
      (fun res w => Reached r (ops + 1) w ∧ res = accessAt env r ops path) E := by
  rintro w ⟨rfl, rfl⟩
  unfold access syscall accessAt
  by_cases hfails : env.fails w.ops = true
  · simp only [if_pos hfails]
    exact ⟨⟨rfl, rfl⟩, trivial⟩
  · simp only [if_neg hfails]
    cases w.fs.stat env.cwd path with
    | error e => exact ⟨⟨rfl, rfl⟩, rfl⟩
    | ok node => exact ⟨⟨rfl, rfl⟩, rfl⟩

theorem execCommand_reached {command : Command} (hw : command.writes = false) :
    Triple (Reached r ops) (execCommand env command)
      (fun out w => Reached r (ops + 1) w ∧ ∃ w₀ : World, w₀.toRepo = r ∧
        out = if env.fails ops then (128, []) else ((command.run env w₀).1, (command.run env w₀).2.1)) E := by
  rintro w ⟨rfl, rfl⟩
  unfold execCommand
  by_cases hfails : env.fails w.ops = true
  · simp only [if_pos hfails]
    exact ⟨⟨rfl, rfl⟩, w, rfl, trivial⟩
  · simp only [if_neg hfails]
    exact ⟨⟨Command.run_of_not_writes hw w, congrArg (· + 1) (command.run_ops w)⟩, w, rfl, rfl⟩

private theorem gpgGetExecutable_reached :
    Triple (Reached r ops) (gpgGetExecutable env) (fun _ => Reached r (ops + 1)) E := by
  refine .tryCatch (R := fun _ => Reached r (ops + 1)) ?_ fun e => .pure fun _ => id
  refine .bind (execCommand_reached rfl) fun out => .bind (R := fun _ => Reached r (ops + 1)) ?_ fun _ =>
    .pure fun _ => id
  exact .ite (fun _ => .pure fun _ hw => hw.1) fun _ => .throw fun _ hw => hw.1

private theorem gpgDecryptFromFile_reached (path : Bytes) :
    Triple (Reached r ops) (gpgDecryptFromFile env path)
      (fun s w => Reached r (ops + 2) w ∧ env.fails (ops + 1) = false ∧
        ∃ contents, decryptedContents env r path = some contents ∧ s = outputStream contents)
      (fun e w => Reached r (ops + 2) w ∧ (env.fails (ops + 1) = true ∨ decryptedContents env r path = none) ∧
        e = decryptFailure) := by
  refine .bind gpgGetExecutable_reached fun program => .bind (execCommand_reached rfl) ?_
  rintro out w ⟨hw, w₀, rfl, rfl⟩
  by_cases hfails : env.fails (ops + 1) = true
  · rw [if_pos hfails]
    exact ⟨hw, .inl hfails, rfl⟩
  · rw [if_neg hfails]
    have hok : env.fails (ops + 1) = false := Bool.eq_false_iff.mpr hfails
    unfold decryptedContents
    simp only [Command.run]
    cases hread : w₀.fs.readFile env.cwd path with
    | error e => exact ⟨hw, .inr rfl, rfl⟩
    | ok bytes =>
      cases hdecrypt : env.gpgDecrypt bytes with
      | none =>
        simp only [hdecrypt]
        exact ⟨hw, .inr hdecrypt, rfl⟩
      | some contents =>
        simp only [hdecrypt]
        exact ⟨hw, hok, contents, hdecrypt, rfl⟩

private theorem tryGpgDecrypt_reached (path : Bytes) :
    Triple (Reached r ops) (tryGpgDecrypt env path)
      (fun res w => Reached r (ops + 2) w ∧
        ((env.fails (ops + 1) = false ∧ ∃ contents, decryptedContents env r path = some contents ∧
          res = .ok (outputStream contents)) ∨
        (env.fails (ops + 1) = true ∨ decryptedContents env r path = none) ∧ res = .error decryptFailure)) E := by
  refine .tryCatch (.bind (gpgDecryptFromFile_reached path) fun s => .pure ?_) fun e => ?_
  · rintro w ⟨hw, hok, contents, hd, rfl⟩
    exact ⟨hw, .inl ⟨hok, contents, hd, rfl⟩⟩
  · rintro w ⟨hw, hnone, rfl⟩
    exact ⟨hw, .inr ⟨hnone, rfl⟩⟩

/-! ### The files of one key -/

section
variable {keyFile : KeyFile} {keyName : Option Bytes} {keyVersion : UInt32} {keysPath : Bytes}

/-- The entry the outcomes lead to, with the last failure of gpg so far. -/
def decideOutcomes (keyName : Option Bytes) (keyVersion : UInt32) :
    Option Exception → List FileOutcome → Except Exception (Option Entry)
  | none, [] => .ok none
  | some e, [] => .error e
  | gpgError, .absent :: outcomes => decideOutcomes keyName keyVersion gpgError outcomes
  | _, .gpgFails :: outcomes => decideOutcomes keyName keyVersion (some decryptFailure) outcomes
  | _, .decrypts contents :: _ => (repoKeyEntry keyName keyVersion contents).map some

section
variable {gpgError : Option Exception} {outcomes : List FileOutcome}

@[simp] theorem decideOutcomes_absent : decideOutcomes keyName keyVersion gpgError (.absent :: outcomes) =
    decideOutcomes keyName keyVersion gpgError outcomes := by
  cases gpgError <;> rfl

@[simp] theorem decideOutcomes_gpgFails : decideOutcomes keyName keyVersion gpgError (.gpgFails :: outcomes) =
    decideOutcomes keyName keyVersion (some decryptFailure) outcomes := by
  cases gpgError <;> rfl

@[simp] theorem decideOutcomes_decrypts {contents : Bytes} :
    decideOutcomes keyName keyVersion gpgError (.decrypts contents :: outcomes) =
      (repoKeyEntry keyName keyVersion contents).map some := by
  cases gpgError <;> rfl

/-- The first file that decrypts decides. -/
theorem decideOutcomes_of_decrypts {before after : List FileOutcome} {contents : Bytes}
    (h : ∀ o ∈ before, ¬ o.Decrypts) (gpgError : Option Exception) :
    decideOutcomes keyName keyVersion gpgError (before ++ .decrypts contents :: after) =
      (repoKeyEntry keyName keyVersion contents).map some := by
  induction before generalizing gpgError with
  | nil => exact decideOutcomes_decrypts
  | cons o before ih =>
    obtain ⟨ho, hbefore⟩ := List.forall_mem_cons.mp h
    cases o with
    | absent => exact decideOutcomes_absent.trans (ih hbefore _)
    | gpgFails => exact decideOutcomes_gpgFails.trans (ih hbefore _)
    | decrypts contents => exact absurd ⟨contents, rfl⟩ ho

theorem decideOutcomes_of_absent (h : ∀ o ∈ outcomes, o = .absent) :
    decideOutcomes keyName keyVersion none outcomes = .ok none := by
  induction outcomes with
  | nil => rfl
  | cons o outcomes ih =>
    obtain ⟨rfl, hrest⟩ := List.forall_mem_cons.mp h
    exact decideOutcomes_absent.trans (ih hrest)

/-- A failure of gpg is not forgotten. -/
private theorem decideOutcomes_of_failure (h : ∀ o ∈ outcomes, ¬ o.Decrypts) :
    decideOutcomes keyName keyVersion (some decryptFailure) outcomes = .error decryptFailure := by
  induction outcomes with
  | nil => rfl
  | cons o outcomes ih =>
    obtain ⟨ho, hrest⟩ := List.forall_mem_cons.mp h
    cases o with
    | absent => exact decideOutcomes_absent.trans (ih hrest)
    | gpgFails => exact decideOutcomes_gpgFails.trans (ih hrest)
    | decrypts contents => exact absurd ⟨contents, rfl⟩ ho

theorem decideOutcomes_of_gpgFails (h : ∀ o ∈ outcomes, ¬ o.Decrypts) (hfails : .gpgFails ∈ outcomes) :
    decideOutcomes keyName keyVersion none outcomes = .error decryptFailure := by
  induction outcomes with
  | nil => cases hfails
  | cons o outcomes ih =>
    obtain ⟨ho, hrest⟩ := List.forall_mem_cons.mp h
    cases o with
    | absent => exact decideOutcomes_absent.trans (ih hrest ((List.mem_cons.mp hfails).resolve_left (by simp)))
    | gpgFails => exact decideOutcomes_gpgFails.trans (decideOutcomes_of_failure hrest)
    | decrypts contents => exact absurd ⟨contents, rfl⟩ ho

end

/-- One of the files is the first that decrypts, or none decrypts. -/
theorem exists_first_decrypts (outcomes : List FileOutcome) :
    (∃ before contents after, outcomes = before ++ .decrypts contents :: after ∧ ∀ o ∈ before, ¬ o.Decrypts) ∨
      ∀ o ∈ outcomes, ¬ o.Decrypts := by
  induction outcomes with
  | nil => exact .inr (by simp)
  | cons o outcomes ih =>
    by_cases ho : o.Decrypts
    · obtain ⟨contents, rfl⟩ := ho
      exact .inl ⟨[], contents, outcomes, rfl, by simp⟩
    · rcases ih with ⟨before, contents, after, rfl, hbefore⟩ | hnone
      · exact .inl ⟨o :: before, contents, after, rfl, List.forall_mem_cons.mpr ⟨ho, hbefore⟩⟩
      · exact .inr (List.forall_mem_cons.mpr ⟨ho, hnone⟩)

theorem FileOutcome.eq_gpgFails {o : FileOutcome} (hpresent : o ≠ .absent) (h : ¬ o.Decrypts) : o = .gpgFails := by
  cases o with
  | absent => exact absurd rfl hpresent
  | gpgFails => rfl
  | decrypts contents => exact absurd ⟨contents, rfl⟩ h

/-- What is thrown is decided, and whose fault it is. -/
private theorem decideOutcomes_cases (outcomes : List FileOutcome) :
    ((∃ message, decideOutcomes keyName keyVersion none outcomes = .error (.gpgError message)) ↔
      (∃ o ∈ outcomes, o ≠ .absent) ∧ ∀ o ∈ outcomes, ¬ o.Decrypts) ∧
    (decideOutcomes keyName keyVersion none outcomes = .ok none ↔ ∀ o ∈ outcomes, o = .absent) := by
  rcases exists_first_decrypts outcomes with ⟨before, contents, after, rfl, hbefore⟩ | hnone
  · rw [decideOutcomes_of_decrypts hbefore]
    have hmem : FileOutcome.decrypts contents ∈ before ++ .decrypts contents :: after := by simp
    refine ⟨⟨?_, fun h => absurd ⟨contents, rfl⟩ (h.2 _ hmem)⟩, ?_, fun h => ?_⟩
    · rintro ⟨message, h⟩
      cases hentry : repoKeyEntry keyName keyVersion contents with
      | error e =>
        rw [hentry] at h
        cases h
        exact absurd hentry repoKeyEntry_error
      | ok key =>
        rw [hentry] at h
        cases h
    · intro h
      cases hentry : repoKeyEntry keyName keyVersion contents <;> rw [hentry] at h <;> cases h
    · cases h _ hmem
  · by_cases hpresent : ∃ o ∈ outcomes, o ≠ .absent
    · obtain ⟨o, ho, hne⟩ := hpresent
      have hfails : FileOutcome.gpgFails ∈ outcomes := FileOutcome.eq_gpgFails hne (hnone o ho) ▸ ho
      rw [decideOutcomes_of_gpgFails hnone hfails]
      refine ⟨⟨fun _ => ⟨⟨o, ho, hne⟩, hnone⟩, fun _ => ⟨_, rfl⟩⟩, fun h => ?_, fun h => absurd (h o ho) hne⟩
      cases h
    · have habsent : ∀ o ∈ outcomes, o = .absent := by
        intro o ho
        by_contra hne
        exact hpresent ⟨o, ho, hne⟩
      rw [decideOutcomes_of_absent habsent]
      refine ⟨⟨?_, fun h => absurd h.1 hpresent⟩, fun _ => habsent, fun _ => rfl⟩
      rintro ⟨message, h⟩
      cases h

/-- The outcomes of the files for some secret keys. -/
abbrev keyOutcomes (env : Env) (r : Repo) (ops : Nat) (keyName : Option Bytes) (keyVersion : UInt32) (keysPath : Bytes)
    (secretKeys : List Bytes) : List FileOutcome :=
  outcomesAt env r ops (secretKeys.map (repoKeyPath keysPath keyName keyVersion))

theorem decryptRepoKeyWith_decided (gpgError : Option Exception) (secretKeys : List Bytes) :
    Triple (Reached r ops) (decryptRepoKeyWith env keyFile keyName keyVersion keysPath gpgError secretKeys)
      (fun res w => w.toRepo = r ∧ ∃ key, res = key.map (keyFile.setKeyName keyName).add ∧
        decideOutcomes keyName keyVersion gpgError (keyOutcomes env r ops keyName keyVersion keysPath secretKeys) = .ok key)
      fun e w => w.toRepo = r ∧
        decideOutcomes keyName keyVersion gpgError (keyOutcomes env r ops keyName keyVersion keysPath secretKeys) = .error e := by
  induction secretKeys generalizing gpgError ops with
  | nil =>
    unfold decryptRepoKeyWith
    cases gpgError with
    | none => exact .pure fun w hw => ⟨hw.1, none, rfl, rfl⟩
    | some e => exact .throw fun w hw => ⟨hw.1, rfl⟩
  | cons seckey secretKeys ih =>
    let path := repoKeyPath keysPath keyName keyVersion seckey
    have hcons : keyOutcomes env r ops keyName keyVersion keysPath (seckey :: secretKeys) =
        outcomeAt env r ops path :: keyOutcomes env r (ops + (outcomeAt env r ops path).operations) keyName keyVersion
          keysPath secretKeys := rfl
    refine .bind (access_reached path) fun res => .assuming fun hres => ?_
    rw [hcons]
    cases haccess : accessAt env r ops path with
    | error e =>
      rw [haccess] at hres
      subst hres
      rw [outcomeAt_of_absent haccess, decideOutcomes_absent]
      exact ih gpgError
    | ok present =>
      rw [haccess] at hres
      subst hres
      have houtcome := outcomeAt_of_present haccess
      refine .bind (tryGpgDecrypt_reached path) fun res => .assuming ?_
      rintro (⟨hfails, contents, hdecrypt, rfl⟩ | ⟨hnone, rfl⟩)
      · -- the first file that decrypts decides
        rw [hdecrypt] at houtcome
        have hdecrypts : outcomeAt env r ops path = .decrypts contents := houtcome.trans (if_neg (by simp [hfails]))
        rw [hdecrypts, decideOutcomes_decrypts]
        refine .bind ((acceptRepoKey_entry keyFile keyName keyVersion contents).weakenError ?_)
          fun kf => .pure ?_
        · rintro e w ⟨hw, hentry⟩
          exact ⟨hw.1, by rw [hentry]; rfl⟩
        · rintro w ⟨hw, key, hentry, rfl⟩
          exact ⟨hw.1, some key, rfl, by rw [hentry]; rfl⟩
      · have hgpg : outcomeAt env r ops path = .gpgFails := by
          rw [houtcome]
          cases hdecrypt : decryptedContents env r path with
          | none => rfl
          | some contents =>
            rw [hdecrypt] at hnone
            exact if_pos (hnone.resolve_right (by simp))
        rw [hgpg, decideOutcomes_gpgFails]
        exact ih (some decryptFailure)

/-- `decrypt_repo_key` as it works on the key file of its caller, and returns whether it has
added the key. -/
def decryptRepoKeyInto (env : Env) (keyName : Option Bytes) (keyVersion : UInt32) (keysPath : Bytes)
    (gpgError : Option Exception) : List Bytes → Prog (World × KeyFile) Exception Bool
  | [] =>
    match gpgError with
    | some e => throw e
    | none => return false
  | seckey :: secretKeys => do
    let path := repoKeyPath keysPath keyName keyVersion seckey
    match ← Prog.onFst (access env path) with
    | .error _ => decryptRepoKeyInto env keyName keyVersion keysPath gpgError secretKeys
    | .ok () =>
      match ← Prog.onFst (tryGpgDecrypt env path) with
      | .error e => decryptRepoKeyInto env keyName keyVersion keysPath (some e) secretKeys
      | .ok decryptedContents =>
        let thisVersionKeyFile ← Prog.onFst (loaded (KeyFile.empty.load decryptedContents))
        match thisVersionKeyFile.get keyVersion with
        | none => throw (.error (str missingVersion))
        | some thisVersionEntry =>
          if !sameKeyName keyName thisVersionKeyFile.getKeyName then throw (.error (str wrongName))
          modify fun s => (s.1, s.2.setKeyName keyName)
          modify fun s => (s.1, s.2.add thisVersionEntry)
          return true

/-- The key file that is returned is the one the caller's was made into. -/
private theorem decryptRepoKeyInto_run (gpgError : Option Exception) (secretKeys : List Bytes) (w : World)
    (keyFile : KeyFile) :
    let run := decryptRepoKeyWith env keyFile keyName keyVersion keysPath gpgError secretKeys w
    decryptRepoKeyInto env keyName keyVersion keysPath gpgError secretKeys (w, keyFile) =
      (run.1.map Option.isSome, run.2, run.1.toOption.join.getD keyFile) := by
  intro run
  unfold run
  clear run
  induction secretKeys generalizing gpgError w with
  | nil => cases gpgError <;> rfl
  | cons seckey secretKeys ih =>
    rw [decryptRepoKeyInto, decryptRepoKeyWith, Prog.onFst_bind, Prog.bind_apply]
    rcases access env (repoKeyPath keysPath keyName keyVersion seckey) w with ⟨e | e | present, w₁⟩
    · rfl
    · exact ih gpgError w₁
    · dsimp only
      rw [Prog.onFst_bind, Prog.bind_apply]
      rcases tryGpgDecrypt env (repoKeyPath keysPath keyName keyVersion seckey) w₁ with ⟨e | e | contents, w₂⟩
      · rfl
      · exact ih (some e) w₂
      · dsimp only
        rw [Prog.onFst_bind, Prog.bind_apply, acceptRepoKey, Prog.bind_apply]
        rcases loaded (KeyFile.empty.load contents) w₂ with ⟨e | thisVersionKeyFile, w₃⟩
        · rfl
        · dsimp only
          cases thisVersionKeyFile.get keyVersion with
          | none => rfl
          | some key => cases sameKeyName keyName thisVersionKeyFile.getKeyName <;> rfl

private theorem decryptRepoKeyInto_decided (secretKeys : List Bytes) (w : World) :
    let outcomes := keyOutcomes env w.toRepo w.ops keyName keyVersion keysPath secretKeys
    let run := decryptRepoKeyInto env keyName keyVersion keysPath none secretKeys (w, keyFile)
    run.1 = (decideOutcomes keyName keyVersion none outcomes).map Option.isSome ∧
      run.2.2 = (decideOutcomes keyName keyVersion none outcomes).toOption.join.elim keyFile
        (keyFile.setKeyName keyName).add := by
  intro outcomes run
  have hdecided := @decryptRepoKeyWith_decided env w.toRepo w.ops keyFile keyName keyVersion keysPath none secretKeys w
    ⟨rfl, rfl⟩
  unfold run
  rw [decryptRepoKeyInto_run]
  rcases hres : decryptRepoKeyWith env keyFile keyName keyVersion keysPath none secretKeys w with ⟨e | res, w'⟩
  · rw [hres] at hdecided
    rw [show decideOutcomes keyName keyVersion none outcomes = .error e from hdecided.2]
    exact ⟨rfl, rfl⟩
  · rw [hres] at hdecided
    obtain ⟨-, key, rfl, hkey⟩ := hdecided
    rw [show decideOutcomes keyName keyVersion none outcomes = .ok key from hkey]
    cases key with
    | none => exact ⟨rfl, rfl⟩
    | some key => exact ⟨rfl, rfl⟩

/-- `decrypt_repo_key` is decided by the first of the files that decrypts. When none does, it
reports gpg's failure if a file is there, and nothing if none is. The key file of its caller
changes only when the key was found. -/
theorem decryptRepoKey_outcome (secretKeys : List Bytes) (w : World) :
    let outcomes := keyOutcomes env w.toRepo w.ops keyName keyVersion keysPath secretKeys
    let run := decryptRepoKeyInto env keyName keyVersion keysPath none secretKeys (w, keyFile)
    (∀ before contents after, outcomes = before ++ .decrypts contents :: after → (∀ o ∈ before, ¬ o.Decrypts) →
      (∀ key, repoKeyEntry keyName keyVersion contents = .ok key →
        run.1 = .ok true ∧ run.2.2 = (keyFile.setKeyName keyName).add key) ∧
      ∀ e, repoKeyEntry keyName keyVersion contents = .error e → run.1 = .error e) ∧
    ((∃ message, run.1 = .error (.gpgError message)) ↔
      (∃ o ∈ outcomes, o ≠ .absent) ∧ ∀ o ∈ outcomes, ¬ o.Decrypts) ∧
    (run.1 = .ok false ↔ ∀ o ∈ outcomes, o = .absent) ∧
    (run.1 ≠ .ok true → run.2.2 = keyFile) := by
  intro outcomes run
  obtain ⟨hrun, hfile⟩ := @decryptRepoKeyInto_decided env keyFile keyName keyVersion keysPath secretKeys w
  change run.1 = (decideOutcomes keyName keyVersion none outcomes).map Option.isSome at hrun
  change run.2.2 = (decideOutcomes keyName keyVersion none outcomes).toOption.join.elim keyFile _ at hfile
  obtain ⟨hgpg, habsent⟩ := @decideOutcomes_cases keyName keyVersion outcomes
  rw [hrun, hfile]
  refine ⟨fun before contents after hsplit hbefore => ?_, Iff.trans ?_ hgpg, Iff.trans ?_ habsent, ?_⟩
  · rw [hsplit, decideOutcomes_of_decrypts hbefore]
    constructor
    · intro key hentry
      rw [hentry]
      exact ⟨rfl, rfl⟩
    · intro e hentry
      rw [hentry]
      rfl
  · cases decideOutcomes keyName keyVersion none outcomes <;> simp [Except.map]
  · rcases decideOutcomes keyName keyVersion none outcomes with e | _ | key <;> simp [Except.map]
  · rcases decideOutcomes keyName keyVersion none outcomes with e | _ | key
    · exact fun _ => rfl
    · exact fun _ => rfl
    · exact fun h => absurd rfl h

end

/-! ### The files of all keys -/

theorem outcomeAt_of_reliable (h : Reliable env) (path : Bytes) : outcomeAt env r ops path = fileOutcome env r path := by
  rw [outcomeAt, h ops, if_neg (by simp)]
  cases fileOutcome env r path with
  | absent => rfl
  | gpgFails => rfl
  | decrypts contents => exact if_neg (by simp [h (ops + 2)])

theorem outcomesAt_of_reliable (h : Reliable env) (paths : List Bytes) :
    outcomesAt env r ops paths = paths.map (fileOutcome env r) := by
  induction paths generalizing ops with
  | nil => rfl
  | cons path paths ih => rw [outcomesAt, ih, outcomeAt_of_reliable h, List.map_cons]

section
variable (env r) (keyVersion : UInt32) (secretKeys : List Bytes) (keysPath : Bytes)

/-- The key has a directory, under a name that is not passed over. -/
def Listed (keyName : Option Bytes) : Prop :=
  ∃ dirents, r.fs.readdir env.cwd keysPath = .ok dirents ∧ ∃ dirent ∈ dirents, keyNameOfDirent dirent = some keyName

/-- What comes of the files of a key. -/
def filesOf (keyName : Option Bytes) : List FileOutcome :=
  secretKeys.map fun seckey => fileOutcome env r (repoKeyPath keysPath keyName keyVersion seckey)

/-- One of the files of a key decrypts to a key file with the key. -/
def Unlockable (keyName : Option Bytes) (key : Entry) : Prop :=
  ∃ contents, .decrypts contents ∈ filesOf env r keyVersion secretKeys keysPath keyName ∧
    HoldsKey contents keyName keyVersion key

/-- The first file of a key that decrypts does not hold the key, or gpg fails on all that are
there. -/
inductive Blocks (keyName : Option Bytes) : Prop
  | contents {before after : List FileOutcome} {contents : Bytes}
      (hsplit : filesOf env r keyVersion secretKeys keysPath keyName = before ++ .decrypts contents :: after)
      (hbefore : ∀ o ∈ before, ¬ o.Decrypts) (h : ∀ key, ¬ HoldsKey contents keyName keyVersion key)
  | gpg (hfails : .gpgFails ∈ filesOf env r keyVersion secretKeys keysPath keyName)
      (h : ∀ o ∈ filesOf env r keyVersion secretKeys keysPath keyName, ¬ o.Decrypts)

/-- What `decrypt_repo_key` decides on a key. -/
def keyDecided (keyName : Option Bytes) : Except Exception (Option Entry) :=
  decideOutcomes keyName keyVersion none (filesOf env r keyVersion secretKeys keysPath keyName)

end

section
variable {keyVersion : UInt32} {secretKeys : List Bytes} {keysPath : Bytes} {keyName : Option Bytes}

theorem Blocks.throws (h : Blocks env r keyVersion secretKeys keysPath keyName) :
    ∃ e, keyDecided env r keyVersion secretKeys keysPath keyName = .error e := by
  unfold keyDecided
  cases h with
  | contents hsplit hbefore h =>
    rename_i before after contents
    rw [hsplit, decideOutcomes_of_decrypts hbefore]
    cases hentry : repoKeyEntry keyName keyVersion contents with
    | error e => exact ⟨e, rfl⟩
    | ok key => exact absurd (repoKeyEntry_ok.mp hentry) (h key)
  | gpg hfails h => exact ⟨_, decideOutcomes_of_gpgFails h hfails⟩

theorem blocks_of_throws {e : Exception} (h : keyDecided env r keyVersion secretKeys keysPath keyName = .error e) :
    Blocks env r keyVersion secretKeys keysPath keyName := by
  unfold keyDecided at h
  rcases exists_first_decrypts (filesOf env r keyVersion secretKeys keysPath keyName) with
    ⟨before, contents, after, hsplit, hbefore⟩ | hnone
  · refine .contents hsplit hbefore fun key hkey => ?_
    rw [hsplit, decideOutcomes_of_decrypts hbefore, repoKeyEntry_ok.mpr hkey] at h
    cases h
  · refine .gpg ?_ hnone
    by_contra hfails
    have habsent : ∀ o ∈ filesOf env r keyVersion secretKeys keysPath keyName, o = .absent := by
      intro o ho
      by_contra hne
      exact hfails (FileOutcome.eq_gpgFails hne (hnone o ho) ▸ ho)
    rw [decideOutcomes_of_absent habsent] at h
    cases h

/-- A key that can be unlocked and does not block is found. -/
theorem Unlockable.found {key : Entry} (h : Unlockable env r keyVersion secretKeys keysPath keyName key)
    (hblocks : ¬ Blocks env r keyVersion secretKeys keysPath keyName) :
    ∃ key', keyDecided env r keyVersion secretKeys keysPath keyName = .ok (some key') ∧
      Unlockable env r keyVersion secretKeys keysPath keyName key' := by
  obtain ⟨contents, hmem, -⟩ := h
  rcases exists_first_decrypts (filesOf env r keyVersion secretKeys keysPath keyName) with
    ⟨before, contents', after, hsplit, hbefore⟩ | hnone
  · have hdecided := @decideOutcomes_of_decrypts keyName keyVersion before after contents' hbefore none
    rw [← hsplit] at hdecided
    cases hentry : repoKeyEntry keyName keyVersion contents' with
    | error e =>
      refine absurd (blocks_of_throws (e := e) ?_) hblocks
      rw [keyDecided, hdecided, hentry]
      rfl
    | ok key' =>
      refine ⟨key', ?_, contents', by rw [hsplit]; simp, repoKeyEntry_ok.mp hentry⟩
      rw [keyDecided, hdecided, hentry]
      rfl
  · exact absurd ⟨contents, rfl⟩ (hnone _ hmem)

theorem decryptRepoKey_reliable (h : Reliable env) :
    Triple (fun w => w.toRepo = r) (decryptRepoKey env KeyFile.empty keyName keyVersion secretKeys keysPath)
      (fun res w => w.toRepo = r ∧ ∃ key, res = key.map (KeyFile.empty.setKeyName keyName).add ∧
        keyDecided env r keyVersion secretKeys keysPath keyName = .ok key)
      fun e _ => keyDecided env r keyVersion secretKeys keysPath keyName = .error e := by
  intro w hw
  have hdecided := @decryptRepoKeyWith_decided env r w.ops .empty keyName keyVersion keysPath none secretKeys w ⟨hw, rfl⟩
  have houtcomes : keyOutcomes env r w.ops keyName keyVersion keysPath secretKeys =
      filesOf env r keyVersion secretKeys keysPath keyName := by
    rw [keyOutcomes, outcomesAt_of_reliable h, List.map_map, filesOf]
    rfl
  rw [houtcomes] at hdecided
  unfold decryptRepoKey keyDecided
  rcases hrun : decryptRepoKeyWith env .empty keyName keyVersion keysPath none secretKeys w with ⟨e | res, w'⟩
  · rw [hrun] at hdecided
    exact hdecided.2
  · rw [hrun] at hdecided
    exact hdecided

/-- The loop returns the keys that are found, or throws what the first key throws that does. -/
private theorem decryptRepoKeysOf_decided (h : Reliable env) (dirents : List Bytes) :
    Triple (fun w => w.toRepo = r) (decryptRepoKeysOf env keyVersion secretKeys keysPath dirents)
      (fun keyFiles _ => ∀ dirent ∈ dirents, ∀ keyName, keyNameOfDirent dirent = some keyName →
        ∃ key, keyDecided env r keyVersion secretKeys keysPath keyName = .ok key ∧
          ∀ entry, key = some entry → (KeyFile.empty.setKeyName keyName).add entry ∈ keyFiles)
      fun e _ => ∃ dirent ∈ dirents, ∃ keyName, keyNameOfDirent dirent = some keyName ∧
        keyDecided env r keyVersion secretKeys keysPath keyName = .error e := by
  induction dirents with
  | nil => exact .pure fun _ _ => by simp
  | cons dirent dirents ih =>
    unfold decryptRepoKeysOf
    split
    · rename_i hskipped
      refine ih.weaken (fun _ => id) (fun keyFiles _ hrest => List.forall_mem_cons.mpr ⟨?_, hrest⟩) ?_
      · intro keyName hname
        rw [hskipped] at hname
        cases hname
      · rintro e - ⟨dirent', hmem, hthrows⟩
        exact ⟨dirent', List.mem_cons_of_mem _ hmem, hthrows⟩
    · rename_i keyName hname
      refine .bind ((decryptRepoKey_reliable h).weakenError ?_) fun decrypted =>
        .assuming ?_
      · intro e _ hthrows
        exact ⟨dirent, List.mem_cons_self, keyName, hname, hthrows⟩
      rintro ⟨key, rfl, hkey⟩
      refine .bind (ih.weakenError ?_) fun rest => .pure fun _ hrest => ?_
      · rintro e - ⟨dirent', hmem, hthrows⟩
        exact ⟨dirent', List.mem_cons_of_mem _ hmem, hthrows⟩
      refine List.forall_mem_cons.mpr ⟨?_, fun dirent' hmem keyName' hname' => ?_⟩
      · intro keyName' hname'
        obtain rfl : keyName = keyName' := Option.some.inj (hname.symm.trans hname')
        refine ⟨key, hkey, ?_⟩
        rintro entry rfl
        exact List.mem_append_left _ (by simp)
      · obtain ⟨key', hkey', hadded⟩ := hrest dirent' hmem keyName' hname'
        exact ⟨key', hkey', fun entry he => List.mem_append_right _ (hadded entry he)⟩

private theorem syscall_query_reliable {α : Type} (h : Reliable env) {call : FileCall}
    {query : FileSystem → Except Errno α} {E : Exception → World → Prop} :
    Triple (fun w => w.toRepo = r) (syscall env call fun fs => (query fs).map (·, fs))
      (fun res w => w.toRepo = r ∧ res = query r.fs) E := by
  rintro w rfl
  rw [syscall_query_run, if_neg (by simp [h w.ops])]
  exact ⟨rfl, rfl⟩

theorem getDirectoryContents_reliable (h : Reliable env) (path : Bytes) :
    Triple (fun w => w.toRepo = r) (getDirectoryContents env path)
      (fun dirents w => w.toRepo = r ∧ ∃ names, r.fs.readdir env.cwd path = .ok names ∧ ∀ d, d ∈ dirents ↔ d ∈ names)
      fun _ _ => ∃ e, r.fs.readdir env.cwd path = .error e := by
  cases hread : r.fs.readdir env.cwd path with
  | error e =>
    refine .bind (syscall_query_reliable h) fun res => .assuming fun hres => ?_
    rw [hread] at hres
    subst hres
    exact .throw fun _ _ => ⟨e, rfl⟩
  | ok names =>
    refine .bind (syscall_query_reliable h) fun res => .assuming fun hres => ?_
    rw [hread] at hres
    subst hres
    refine .bind (syscall_query_reliable h) fun res => .assuming fun hres => ?_
    rw [hread] at hres
    subst hres
    exact .pure fun _ hr => ⟨hr, names, rfl, fun d => List.mem_mergeSort⟩

theorem Listed.access {keyName : Option Bytes} (h : Listed env r keysPath keyName) :
    (r.fs.stat env.cwd keysPath).map (fun _ => ()) = .ok () := by
  obtain ⟨dirents, hread, -⟩ := h
  obtain ⟨loc, hr, -⟩ := FileSystem.readdir_ok hread
  unfold FileSystem.readdir at hread
  rw [hr] at hread
  dsimp only at hread
  split at hread
  · rename_i hf
    rw [FileSystem.stat_ok.mpr ⟨loc, hr, hf⟩]
    rfl
  · cases hread
  · cases hread

/-- The same for the entries of the keys directory, which are found in some order. -/
theorem decryptRepoKeys_decided (h : Reliable env) :
    Triple (fun w => w.toRepo = r) (decryptRepoKeys env keyVersion secretKeys keysPath)
      (fun keyFiles _ => ∀ keyName, Listed env r keysPath keyName →
        ∃ key, keyDecided env r keyVersion secretKeys keysPath keyName = .ok key ∧
          ∀ entry, key = some entry → (KeyFile.empty.setKeyName keyName).add entry ∈ keyFiles)
      fun e _ => (∀ keyName, ¬ Listed env r keysPath keyName) ∨ ∃ keyName, Listed env r keysPath keyName ∧
        keyDecided env r keyVersion secretKeys keysPath keyName = .error e := by
  refine .bind (access_reliable h _) fun res => .assuming fun hres => ?_
  subst hres
  split
  · rename_i hstat
    refine .pure fun _ _ keyName hlisted => ?_
    rw [hlisted.access] at hstat
    cases hstat
  · refine .bind ((getDirectoryContents_reliable h _).weakenError ?_) fun dirents =>
      .assuming ?_
    · rintro e - ⟨errno, hread⟩
      refine .inl fun keyName ⟨dirents, hread', _⟩ => ?_
      rw [hread] at hread'
      cases hread'
    rintro ⟨names, hread, hmem⟩
    refine (decryptRepoKeysOf_decided h dirents).weaken (fun _ => id) ?_ ?_
    · rintro keyFiles - hall keyName ⟨names', hread', dirent, hdirent, hname⟩
      obtain rfl : names = names' := Except.ok.inj (hread.symm.trans hread')
      exact hall dirent ((hmem dirent).mpr hdirent) keyName hname
    · rintro e - ⟨dirent, hdirent, keyName, hname, hthrows⟩
      exact .inr ⟨keyName, ⟨names, hread, dirent, (hmem dirent).mp hdirent, hname⟩, hthrows⟩

/-- One key does not get in the way of another exactly when no key can be unlocked, or no key
blocks. -/
theorem decryptRepoKeys_isolates_iff (h : Reliable env) {w : World} (hw : w.toRepo = r) :
    (∀ keyName key, Listed env r keysPath keyName → Unlockable env r keyVersion secretKeys keysPath keyName key →
      ∃ keyFiles key', (decryptRepoKeys env keyVersion secretKeys keysPath w).1 = .ok keyFiles ∧
        Unlockable env r keyVersion secretKeys keysPath keyName key' ∧
        (KeyFile.empty.setKeyName keyName).add key' ∈ keyFiles) ↔
      (∀ keyName key, Listed env r keysPath keyName → ¬ Unlockable env r keyVersion secretKeys keysPath keyName key) ∨
        ∀ keyName, Listed env r keysPath keyName → ¬ Blocks env r keyVersion secretKeys keysPath keyName := by
  have hdecided := @decryptRepoKeys_decided env r keyVersion secretKeys keysPath h w hw
  constructor
  · intro hall
    by_contra hnot
    obtain ⟨hunlock, hblock⟩ := not_or.mp hnot
    push Not at hunlock hblock
    obtain ⟨keyName, key, hlisted, hkey⟩ := hunlock
    obtain ⟨blocking, hlisted', hblocks⟩ := hblock
    obtain ⟨keyFiles, key', hrun, -⟩ := hall keyName key hlisted hkey
    rcases hres : decryptRepoKeys env keyVersion secretKeys keysPath w with ⟨res, w'⟩
    rw [hres] at hrun hdecided
    cases hrun
    obtain ⟨e, he⟩ := hblocks.throws
    obtain ⟨key', hkey', -⟩ := hdecided blocking hlisted'
    rw [he] at hkey'
    cases hkey'
  · rintro (hnone | hblock) keyName key hlisted hkey
    · exact absurd hkey (hnone keyName key hlisted)
    · rcases hres : decryptRepoKeys env keyVersion secretKeys keysPath w with ⟨e | keyFiles, w'⟩
      · rw [hres] at hdecided
        rcases hdecided with hnone | ⟨blocking, hlisted', he⟩
        · exact absurd hlisted (hnone keyName)
        · exact absurd (blocks_of_throws he) (hblock blocking hlisted')
      · rw [hres] at hdecided
        obtain ⟨key', hfound, hkey'⟩ := hkey.found (hblock keyName hlisted)
        obtain ⟨decided, hkeyDecided, hadded⟩ := hdecided keyName hlisted
        rw [hfound] at hkeyDecided
        exact ⟨keyFiles, key', rfl, hkey', hadded key' (Except.ok.inj hkeyDecided).symm⟩

end

/-- A keys directory with two keys: gpg fails on the file of the one and decrypts that of the
other. -/
private def twoKeys : Repo :=
  let dirs := [str "keys", str "keys/a", str "keys/a/0", str "keys/b", str "keys/b/0"]
  let files := [(str "keys/a/0/AB12.gpg", []),
    (str "keys/b/0/AB12.gpg", str "gpg:" ++ repoKeyData (some (str "b")) Entry.zero)]
  let fs := dirs.foldl (fun fs dir => (fs.mkdir [] dir).toOption.getD fs) FileSystem.empty
  ⟨files.foldl (fun fs file => (fs.writeFile [] file.1 fun _ => file.2).toOption.getD fs) fs, []⟩

private theorem listed_twoKeys {name : Bytes} (h : name = str "a" ∨ name = str "b") :
    Listed markingEnv twoKeys (str "keys") (some name) := by
  have hread : twoKeys.fs.readdir markingEnv.cwd (str "keys") = .ok [str "b", str "a"] := by decide +kernel
  rcases h with rfl | rfl
  · exact ⟨_, hread, str "a", by simp, by decide⟩
  · exact ⟨_, hread, str "b", by simp, by decide⟩

private theorem unlockable_twoKeys :
    Unlockable markingEnv twoKeys 0 [str "AB12"] (str "keys") (some (str "b")) Entry.zero := by
  have hlegal : LegalKeyName (some (str "b")) := by
    rintro name ⟨⟩
    decide
  exact ⟨repoKeyData (some (str "b")) Entry.zero, by decide +kernel, holdsKey_repoKeyData hlegal Entry.zero⟩

private theorem blocks_twoKeys : Blocks markingEnv twoKeys 0 [str "AB12"] (str "keys") (some (str "a")) := by
  have hfiles : filesOf markingEnv twoKeys 0 [str "AB12"] (str "keys") (some (str "a")) = [.gpgFails] := by
    decide +kernel
  refine .gpg (by rw [hfiles]; exact List.mem_singleton_self _) fun o ho => ?_
  rw [hfiles, List.mem_singleton] at ho
  subst ho
  rintro ⟨contents, h⟩
  cases h

/-- The key that gpg decrypts is not returned. -/
theorem decryptRepoKeys_blocked : ∃ (env : Env) (r : Repo) (keyName : Option Bytes) (key : Entry),
    Listed env r (str "keys") keyName ∧ Unlockable env r 0 [str "AB12"] (str "keys") keyName key ∧
      ∀ keyFiles, (decryptRepoKeys env 0 [str "AB12"] (str "keys") (r.start env)).1 ≠ .ok keyFiles := by
  refine ⟨markingEnv, twoKeys, some (str "b"), Entry.zero, listed_twoKeys (.inr rfl), unlockable_twoKeys, ?_⟩
  intro keyFiles hok
  have hdecided := (@decryptRepoKeys_decided markingEnv twoKeys 0 [str "AB12"] (str "keys") fun _ => rfl).ok
    (s := twoKeys.start markingEnv) rfl (Prod.ext hok rfl)
  obtain ⟨e, he⟩ := blocks_twoKeys.throws
  obtain ⟨key, hkey, -⟩ := hdecided _ (listed_twoKeys (.inl rfl))
  rw [he] at hkey
  cases hkey

/-- Without the key gpg fails on there would be nothing in the way. -/
theorem decryptRepoKeys_isolates_iff_twoKeys :
    ¬ ∀ keyName key, Listed markingEnv twoKeys (str "keys") keyName →
      Unlockable markingEnv twoKeys 0 [str "AB12"] (str "keys") keyName key →
      ∃ keyFiles key', (decryptRepoKeys markingEnv 0 [str "AB12"] (str "keys") (twoKeys.start markingEnv)).1 = .ok keyFiles ∧
        Unlockable markingEnv twoKeys 0 [str "AB12"] (str "keys") keyName key' ∧
        (KeyFile.empty.setKeyName keyName).add key' ∈ keyFiles := by
  intro hall
  have hiff := @decryptRepoKeys_isolates_iff markingEnv twoKeys 0 [str "AB12"] (str "keys") (fun _ => rfl)
    (twoKeys.start markingEnv) rfl
  rcases hiff.mp hall with hnone | hblocks
  · exact hnone _ _ (listed_twoKeys (.inr rfl)) unlockable_twoKeys
  · exact hblocks _ (listed_twoKeys (.inl rfl)) blocks_twoKeys

end GitCrypt
