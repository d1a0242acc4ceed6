import GitCrypt.KeyRoundTrip
import GitCrypt.KeyCommands
import GitCrypt.Seen

/-! What the helpers that only look find out, as functions of the repository and of the answers
of git and gpg. An operation that fails keeps them from finding it, but never makes them find
something else. -/
namespace GitCrypt
open Iostream Posix
variable {α β : Type} {env : Env} {s : Repo × List Event}

/-- What is returned is the value, and without a failure it is returned. -/
def Learns (env : Env) (s : Repo × List Event) (m : Action α) (value : Option α) : Prop :=
  Triple (fun w => w.seen = s) m (fun a w => w.seen = s ∧ value = some a)
    fun _ w => w.seen = s ∧ (Reliable env → value = none)

/-- The same where nothing found is a result. -/
def Finds (env : Env) (s : Repo × List Event) (m : Action (Option α)) (value : Option α) : Prop :=
  Triple (fun w => w.seen = s) m (fun a w => w.seen = s ∧ (a = value ∨ ¬ Reliable env ∧ a = none))
    fun _ w => w.seen = s ∧ (Reliable env → value = none)

namespace Learns
variable {m : Action α} {f : α → Action β} {value : Option α} {next : α → Option β}

theorem pure (a : α) : Learns env s (Pure.pure a) (some a) := Triple.pure fun _ hw => ⟨hw, rfl⟩

theorem throw (e : Exception) : Learns env s (MonadExcept.throw e : Action α) none :=
  Triple.throw fun _ hw => ⟨hw, fun _ => rfl⟩

theorem bind (hm : Learns env s m value) (hf : ∀ a, Learns env s (f a) (next a)) :
    Learns env s (m >>= f) (value.bind next) := by
  refine Triple.bind (hm.weakenError ?_) fun a => Triple.assuming fun ha => ?_
  · exact fun e w ⟨hw, hnone⟩ => ⟨hw, fun h => by rw [hnone h, Option.bind_none]⟩
  · rw [ha]
    exact hf a

theorem map (hm : Learns env s m value) (f : α → β) :
    Learns env s (m >>= fun a => Pure.pure (f a)) (value.map f) :=
  Option.map_eq_bind ▸ hm.bind fun a => pure (f a)

/-- What is always found. -/
theorem andThen {a : α} {next : Option β} (hm : Learns env s m (some a)) (hf : Learns env s (f a) next) :
    Learns env s (m >>= f) next := by
  refine Triple.bind (hm.weakenError ?_) fun b => Triple.assuming fun hb => ?_
  · exact fun e w ⟨hw, hnone⟩ => ⟨hw, fun h => by cases hnone h⟩
  · rwa [← Option.some.inj hb]

/-- What is always found is found, unless the system fails. -/
theorem triple {a : α} (hm : Learns env s m (some a)) :
    Triple (fun w => w.seen = s) m (fun b w => w.seen = s ∧ b = a) fun _ w => w.seen = s ∧ ¬ Reliable env := by
  refine hm.weaken (fun _ => id) (fun b w hw => ⟨hw.1, (Option.some.inj hw.2).symm⟩) fun e w hw => ⟨hw.1, fun h => ?_⟩
  cases hw.2 h

end Learns

/-- Where nothing found is an error. -/
theorem Finds.orThrow {m : Action (Option α)} {f : Option α → Action β} {value : Option α} {next : α → Option β}
    (hm : Finds env s m value) (hnone : ∃ e, f none = throw e) (hf : ∀ a, Learns env s (f (some a)) (next a)) :
    Learns env s (m >>= f) (value.bind next) := by
  obtain ⟨e, he⟩ := hnone
  refine Triple.bind (hm.weakenError ?_) fun a w ⟨hw, ha⟩ => ?_
  · exact fun e w ⟨hw, hnone⟩ => ⟨hw, fun h => by rw [hnone h, Option.bind_none]⟩
  cases a with
  | none =>
    rw [he]
    refine ⟨hw, fun h => ?_⟩
    rcases ha with ha | ⟨hfail, -⟩
    · rw [← ha, Option.bind_none]
    · exact absurd h hfail
  | some a =>
    obtain rfl : some a = value := by
      rcases ha with ha | ⟨-, ha⟩
      · exact ha
      · cases ha
    exact hf a w hw

/-- A subprocess that only answers, and whose failure is an error. -/
theorem execCommand_learns (answer : Nat × Bytes) {command : Command} (hw : command.writes = false)
    (hv : ∀ status, (Event.ran command status).visible = false)
    (h : ∀ w : World, w.toRepo = s.1 → ((command.run env w).1, (command.run env w).2.1) = answer)
    {f : Nat × Bytes → Action β} {next : Option β} (hf : Learns env s (f answer) next)
    (hfail : ∃ e, f (128, []) = throw e) : Learns env s (execCommand env command >>= f) next := by
  refine Triple.bind (execCommand_query_seen hw hv h) fun out w ⟨hw, hout⟩ => ?_
  rcases hout with rfl | ⟨hunreliable, rfl⟩
  · exact hf w hw
  · obtain ⟨e, he⟩ := hfail
    rw [he]
    exact ⟨hw, fun h => absurd h hunreliable⟩

def internalKeysPath (env : Env) : Bytes := gitDirPath env ++ str "/git-crypt" ++ str "/keys"

theorem getInternalKeysPath_learns : Learns env s (getInternalKeysPath env) (some (internalKeysPath env)) := by
  have hstate : Learns env s (getInternalStatePath env) (some (gitDirPath env ++ str "/git-crypt")) :=
    execCommand_learns (0, env.gitDir) rfl (fun _ => rfl) (fun _ _ => rfl) (.pure _) ⟨_, rfl⟩
  exact hstate.map (· ++ str "/keys")

theorem getInternalKeyPath_learns (keyName : Option Bytes) :
    Learns env s (getInternalKeyPath env keyName) (some (internalKeyPath env keyName)) :=
  getInternalKeysPath_learns.map (· ++ str "/" ++ keyName.getD (str "default"))

theorem getGitStatus_learns : Learns env s (getGitStatus env) (some (outputStream (env.status s.1.fs))) := by
  refine execCommand_learns (0, env.status s.1.fs) rfl (fun _ => rfl) (fun w hw => ?_) (.pure _) ⟨_, rfl⟩
  rw [← hw]
  rfl

/-! ### Files -/

/-- What an input file stream on a path delivers. -/
def readable (env : Env) (path : Bytes) (fs : FileSystem) : Option Bytes :=
  match fs.stat env.cwd path with
  | .ok (.file bytes) => some bytes
  | .ok .dir => some []
  | .error _ => none

private theorem readFile_finds (path : Bytes) : Finds env s (readFile env path) (readable env path s.1.fs) := by
  refine Triple.bind (R := fun res w => w.seen = s ∧ (res.toOption = readable env path s.1.fs ∨
    ¬ Reliable env ∧ res.toOption = none)) ?_ fun res => .pure fun w hw => hw
  refine syscall_seen (Q := fun res s' => s' = s ∧ (res.toOption = readable env path s.1.fs ∨
    ¬ Reliable env ∧ res.toOption = none)) (fun _ => rfl) (fun hfail => ⟨rfl, .inr ⟨hfail, rfl⟩⟩) ?_ ?_
  · intro e he
    refine ⟨rfl, .inl ?_⟩
    unfold readable
    unfold FileSystem.readFile at he
    cases hs : s.1.fs.stat env.cwd path with
    | error e => rfl
    | ok node => cases node <;> rw [hs] at he <;> cases he
  · intro bytes fs he
    unfold readable
    unfold FileSystem.readFile at he
    cases hs : s.1.fs.stat env.cwd path with
    | error e =>
      rw [hs] at he
      rcases FileSystem.stat_error hs with rfl | rfl <;> cases he
    | ok node => cases node <;> rw [hs] at he <;> cases he <;> exact ⟨rfl, .inl rfl⟩

theorem getDirectoryContents_learns {path : Bytes} {names : List Bytes} (h : s.1.fs.readdir env.cwd path = .ok names) :
    Learns env s (getDirectoryContents env path) (some (names.mergeSort fun a b => decide (a ≤ b))) := by
  refine Triple.bind (syscall_query_seen fun _ => rfl) fun res => ?_
  rintro w ⟨hw, rfl | ⟨hfail, rfl⟩⟩
  · rw [h]
    refine Triple.bind (syscall_query_seen fun _ => rfl) (fun res => ?_) w hw
    rintro w ⟨hw, rfl | ⟨hfail, rfl⟩⟩
    · rw [h]
      exact ⟨hw, rfl⟩
    · exact ⟨hw, fun hreliable => absurd hreliable hfail⟩
  · exact ⟨hw, fun hreliable => absurd hreliable hfail⟩

/-- What is there reads the same later. -/
private theorem readable_of_le {fs fs' : FileSystem} (hle : fs ≤ fs') {path bytes : Bytes}
    (h : readable env path fs = some bytes) : readable env path fs' = some bytes := by
  unfold readable at h ⊢
  cases hs : fs.stat env.cwd path with
  | error e =>
    rw [hs] at h
    cases h
  | ok node => rwa [FileSystem.Extends.stat hle hs, ← hs]

theorem loaded_learns (bytes : Bytes) :
    Learns env s (loaded (KeyFile.empty.load (.ofBytes bytes))) (KeyFile.loadBytes bytes).toOption := by
  unfold loaded KeyFile.loadBytes
  split
  · rename_i hl
    rw [hl]
    exact .pure _
  · rename_i hl
    rw [hl]
    exact .throw _
  · rename_i hl
    rw [hl]
    exact .throw _

/-- The installed key file. -/
def installedKeyFile (env : Env) (keyName : Option Bytes) (fs : FileSystem) : Option KeyFile :=
  (readable env (internalKeyPath env keyName) fs).bind fun bytes => (KeyFile.loadBytes bytes).toOption

theorem installedKeyFile_of_le {fs fs' : FileSystem} (hle : fs ≤ fs') {keyName : Option Bytes} {keyFile : KeyFile}
    (h : installedKeyFile env keyName fs = some keyFile) : installedKeyFile env keyName fs' = some keyFile := by
  obtain ⟨bytes, hread, hload⟩ := Option.bind_eq_some_iff.mp h
  exact Option.bind_eq_some_iff.mpr ⟨bytes, readable_of_le hle hread, hload⟩

theorem loadKey_learns (keyName : Option Bytes) :
    Learns env s (loadKey env keyName none none) (installedKeyFile env keyName s.1.fs) := by
  refine (getInternalKeyPath_learns keyName).andThen ((readFile_finds _).orThrow ⟨_, rfl⟩ fun bytes => ?_)
  exact loaded_learns bytes

/-! ### The configuration -/

theorem gitHasConfig_learns (name : Bytes) :
    Learns env s (gitHasConfig env name) (some (getConfig s.1.config name).isSome) := by
  have hrun (w : World) (hw : w.toRepo = s.1) : (Command.gitConfigGetAll name).run env w =
      ((getConfig s.1.config name).elim (1, [], w) fun value => (0, value ++ [10], w)) := by
    rw [← hw]
    simp only [Command.run]
    cases getConfig w.config name <;> rfl
  cases hconfig : getConfig s.1.config name with
  | none =>
    rw [hconfig] at hrun
    exact execCommand_learns (1, []) rfl (fun _ => rfl) (fun w hw => by rw [hrun w hw]; rfl) (.pure false) ⟨_, rfl⟩
  | some value =>
    rw [hconfig] at hrun
    exact execCommand_learns (0, value ++ [10]) rfl (fun _ => rfl) (fun w hw => by rw [hrun w hw]; rfl) (.pure true)
      ⟨_, rfl⟩

theorem getGitConfig_learns {name value : Bytes} (h : getConfig s.1.config name = some value) :
    Learns env s (getGitConfig env name) (some ((outputStream (value ++ [10])).getline 10).1) := by
  have hrun (w : World) (hw : w.toRepo = s.1) : (Command.gitConfigGet name).run env w = (0, value ++ [10], w) := by
    have hvalue : getConfig w.config name = some value := by rw [← h, ← hw]
    simp only [Command.run, hvalue]
  exact execCommand_learns (0, value ++ [10]) rfl (fun _ => rfl) (fun w hw => by rw [hrun w hw]) (.pure _) ⟨_, rfl⟩

/-- The directory of the repository's state, where git knows one. -/
def repoStatePath (env : Env) (config : List (Bytes × Bytes)) : Option Bytes :=
  let path := ((outputStream env.topLevel).getline 10).1
  if path = [] then none
  else match getConfig config (str "git-crypt.repoStateDir") with
    | some value => some (path ++ str "/" ++ ((outputStream (value ++ [10])).getline 10).1)
    | none => some (path ++ str "/.git-crypt")

theorem getRepoStatePath_learns : Learns env s (getRepoStatePath env) (repoStatePath env s.1.config) := by
  refine execCommand_learns (0, env.topLevel) rfl (fun _ => rfl) (fun _ _ => rfl) ?_ ⟨_, rfl⟩
  change Learns env s (if ((outputStream env.topLevel).getline 10).1 = [] then _ else _) (if _ then _ else _)
  split_ifs
  · exact .throw _
  · refine (gitHasConfig_learns _).andThen ?_
    cases hconfig : getConfig s.1.config (str "git-crypt.repoStateDir") with
    | none => exact .pure _
    | some value => exact (getGitConfig_learns hconfig).andThen (.pure _)

/-! ### GPG users -/

theorem gpgGetExecutable_seen {E : Exception → World → Prop} :
    Triple (fun w => w.seen = s) (gpgGetExecutable env) (fun _ w => w.seen = s) E := by
  refine .tryCatch (R := fun _ w => w.seen = s) ?_ fun e => .pure fun _ => id
  exact ((getGitConfig_quiet _).triple (· = s)).post fun _ _ => id

/-- The fingerprints gpg has for a query; it may have none. -/
def publicKeysOf (env : Env) (query : Bytes) : Option (List Bytes) :=
  match env.publicKeys query with
  | some output => (readPublicKeys false (splitLines 10 output)).toOption
  | none => some []

theorem gpgLookupKey_seen (query : Bytes) :
    Triple (fun w => w.seen = s) (gpgLookupKey env query)
      (fun fingerprints w => w.seen = s ∧
        (publicKeysOf env query = some fingerprints ∨ ¬ Reliable env ∧ fingerprints = []))
      fun _ w => w.seen = s ∧ (Reliable env → publicKeysOf env query = none) := by
  refine .bind gpgGetExecutable_seen fun program => ?_
  let answer : Nat × Bytes := (env.publicKeys query).elim (2, []) fun output => (0, output)
  have hrun (w : World) (_ : w.toRepo = s.1) : (((Command.gpgListKeys program query).run env w).1,
      ((Command.gpgListKeys program query).run env w).2.1) = answer := by
    simp only [Command.run, answer]
    cases env.publicKeys query <;> rfl
  refine .bind (execCommand_query_seen rfl (fun _ => rfl) hrun) fun out => ?_
  rintro w ⟨hw, hout⟩
  rcases hout with rfl | ⟨hfail, rfl⟩
  · unfold answer publicKeysOf
    cases hkeys : env.publicKeys query with
    | none => exact ⟨hw, .inl rfl⟩
    | some output =>
      dsimp only [Option.elim]
      rw [if_neg (by simp [successfulExit])]
      cases readPublicKeys false (splitLines 10 output) with
      | ok fingerprints => exact ⟨hw, .inl rfl⟩
      | error e => exact ⟨hw, fun _ => rfl⟩
  · exact ⟨hw, .inr ⟨hfail, rfl⟩⟩

/-- The collaborators, where each argument stands for exactly one. -/
def lookedUp (env : Env) (trusted : Bool) : List Bytes → Option (List (Bytes × Bool))
  | [] => some []
  | arg :: args =>
    match publicKeysOf env arg with
    | some [fingerprint] => (lookedUp env trusted args).map ((fingerprint, trusted || isFullFingerprint arg) :: ·)
    | _ => none

theorem lookupCollaborators_finds (trusted : Bool) (args : List Bytes) :
    Finds env s (lookupCollaborators env trusted args) (lookedUp env trusted args) := by
  induction args with
  | nil => exact Triple.pure fun w hw => ⟨hw, .inl rfl⟩
  | cons arg args ih =>
    have hcons (fingerprints : List Bytes) : publicKeysOf env arg = some fingerprints →
        (∀ fingerprint, fingerprints ≠ [fingerprint]) → lookedUp env trusted (arg :: args) = none := by
      intro hkeys hne
      rw [lookedUp, hkeys]
      split
      · rename_i fingerprint he
        exact absurd (Option.some.inj he) (hne fingerprint)
      · rfl
    refine Triple.bind ((gpgLookupKey_seen arg).weakenError ?_) fun fingerprints => ?_
    · exact fun e w ⟨hw, hnone⟩ => ⟨hw, fun h => by rw [lookedUp, hnone h]⟩
    split
    · rintro w ⟨hw, hkeys | ⟨hfail, -⟩⟩
      · exact ⟨hw, .inl (hcons [] hkeys (by simp)).symm⟩
      · exact ⟨hw, .inr ⟨hfail, rfl⟩⟩
    · rename_i fingerprint
      rintro w ⟨hw, hkeys | ⟨-, hnil⟩⟩
      · have hmap : lookedUp env trusted (arg :: args) = (lookedUp env trusted args).map
            ((fingerprint, trusted || isFullFingerprint arg) :: ·) := by
          rw [lookedUp, hkeys]
        rw [hmap]
        refine Triple.bind (ih.weakenError ?_) (fun res => ?_) w hw
        · exact fun e w ⟨hw, hnone⟩ => ⟨hw, fun h => by rw [hnone h, Option.map_none]⟩
        · split
          · rintro w ⟨hw, hnone | ⟨hfail, -⟩⟩
            · exact ⟨hw, .inl (by rw [← hnone, Option.map_none])⟩
            · exact ⟨hw, .inr ⟨hfail, rfl⟩⟩
          · rintro w ⟨hw, hsome | ⟨-, hnone⟩⟩
            · exact ⟨hw, .inl (by rw [← hsome, Option.map_some])⟩
            · cases hnone
      · cases hnil
    · rename_i hone
      rintro w ⟨hw, hkeys | ⟨hfail, -⟩⟩
      · exact ⟨hw, .inl (hcons _ hkeys hone).symm⟩
      · exact ⟨hw, .inr ⟨hfail, rfl⟩⟩

/-- What gpg has as the name of a key's owner, empty for an unknown key. -/
def uidOf (env : Env) (fingerprint : Bytes) : Option Bytes :=
  match env.keyUids (str "0x" ++ fingerprint) with
  | some output => (readUid (splitLines 10 output)).toOption
  | none => some []

theorem gpgGetUid_learns (h : Reliable env) (fingerprint : Bytes) :
    Learns env s (gpgGetUid env fingerprint) (uidOf env fingerprint) := by
  refine Triple.bind gpgGetExecutable_seen fun program => ?_
  let answer : Nat × Bytes := (env.keyUids (str "0x" ++ fingerprint)).elim (2, []) fun output => (0, output)
  have hrun (w : World) (_ : w.toRepo = s.1) : (((Command.gpgListKeyUids program (str "0x" ++ fingerprint)).run env w).1,
      ((Command.gpgListKeyUids program (str "0x" ++ fingerprint)).run env w).2.1) = answer := by
    simp only [Command.run, answer]
    cases env.keyUids (str "0x" ++ fingerprint) <;> rfl
  refine .bind (execCommand_query_seen rfl (fun _ => rfl) hrun) fun out => ?_
  rintro w ⟨hw, hout⟩
  obtain rfl : out = answer := hout.resolve_right fun hfail => hfail.1 h
  unfold answer uidOf
  cases env.keyUids (str "0x" ++ fingerprint) with
  | none => exact ⟨hw, rfl⟩
  | some output =>
    dsimp only [Option.elim]
    rw [if_neg (by simp [successfulExit])]
    cases readUid (splitLines 10 output) with
    | ok uid => exact ⟨hw, rfl⟩
    | error e => exact ⟨hw, fun _ => rfl⟩

/-- The part of the commit message on the collaborators, where gpg knows their names. -/
def collaboratorText (env : Env) : List (Bytes × Bool) → Option Bytes
  | [] => some []
  | (fingerprint, _) :: collabKeys => (uidOf env fingerprint).bind fun uid =>
    (collaboratorText env collabKeys).map fun text =>
      str "    " ++ fingerprint ++ str "\n        " ++ uid ++ str "\n" ++ text

theorem collaboratorLines_learns (h : Reliable env) (collabKeys : List (Bytes × Bool)) :
    Learns env s (collaboratorLines env collabKeys) (collaboratorText env collabKeys) := by
  induction collabKeys with
  | nil => exact .pure _
  | cons collab collabKeys ih => exact (gpgGetUid_learns h _).bind fun uid => ih.map _

/-- The commit message, where gpg knows the names. -/
def messageText (env : Env) (collabKeys : List (Bytes × Bool)) : Option Bytes :=
  (collaboratorText env collabKeys).map fun text =>
    str "Add " ++ str (toString collabKeys.length) ++ str " git-crypt collaborator" ++
      (if collabKeys.length ≠ 1 then str "s" else []) ++ str "\n\nNew collaborators:\n\n" ++ text

theorem commitMessage_learns (h : Reliable env) (collabKeys : List (Bytes × Bool)) :
    Learns env s (commitMessage env collabKeys) (messageText env collabKeys) :=
  (collaboratorLines_learns h collabKeys).map _

end GitCrypt
