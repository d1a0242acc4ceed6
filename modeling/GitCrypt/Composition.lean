import GitCrypt.FilterCommands
import GitCrypt.KeyCommands
import GitCrypt.Library.Composed
import GitCrypt.ReadOnly

/-! The steps of a process, and how the functions of the program are put together from them. -/
namespace GitCrypt
open Iostream Posix Prog
variable {α : Type} {env : Env} {S : Set Bytes}

/-- The exceptions for which `main` has a handler around the command. -/
def Handled : Exception → Prop
  | .optionError .. | .invalidArgument _ => False
  | _ => True

/-- What a subprocess is given to encrypt. -/
def Command.plaintext : Command → Option Bytes
  | .gpgEncrypt _ _ _ _ data => some data
  | _ => none

/-- An operation, which has nothing encrypted but what is in `S`. -/
inductive Operation (env : Env) (S : Set Bytes) : ∀ α : Type, Action α → Prop
  | get : Operation env S World MonadState.get
  /-- Only the variables of the process are changed. -/
  | modify {f : World → World} (h : ∀ w, (f w).toRepo = w.toRepo ∧ (f w).trace = w.trace ∧ (f w).ops = w.ops) :
    Operation env S PUnit (modify f)
  | execCommand (command : Command) (h : ∀ data ∈ command.plaintext, data ∈ S) :
    Operation env S (Nat × Bytes) (execCommand env command)
  | syscall {α : Type} (call : FileCall) (effect : FileSystem → Except Errno (α × FileSystem)) :
    Operation env S (Except Errno α) (syscall env call effect)
  | writeContents (path data : Bytes) : Operation env S Bool (writeContents env path data)
  | randomDraw : Operation env S Draw (randomDraw env)

theorem Operation.handled {m : Action α} (hm : Operation env S α m) {w w' : World} {e : Exception}
    (h : m w = (.error e, w')) : Handled e := by
  cases hm with
  | get => cases h
  | modify => cases h
  | execCommand command =>
    unfold GitCrypt.execCommand at h
    split_ifs at h <;> cases h
  | syscall call effect =>
    unfold GitCrypt.syscall at h
    split_ifs at h
    · cases h
    · split at h <;> cases h
  | writeContents path data =>
    unfold GitCrypt.writeContents at h
    dsimp only at h
    split at h <;> cases h
  | randomDraw => cases h

/-- A program made of these. -/
abbrev Steps (env : Env) (S : Set Bytes) (m : Action α) : Prop := Composed (Operation env S) Handled m

theorem execCommand_steps {command : Command} (h : command.plaintext = none) : Steps env S (execCommand env command) :=
  .op (.execCommand command fun data hdata => by rw [h] at hdata; cases hdata)

theorem syscall_steps (call : FileCall) (effect : FileSystem → Except Errno (α × FileSystem)) :
    Steps env S (syscall env call effect) :=
  .op (.syscall call effect)

theorem logLines_steps (lines : List Bytes) : Steps env S (logLines lines) := .op (.modify fun _ => ⟨rfl, rfl, rfl⟩)

theorem leave_steps (status : Nat) (lines : List Bytes) : Steps env S (leave status lines) :=
  .bind (logLines_steps lines) fun _ => .pure _

theorem requireSuccess_steps {status : Nat} {e : Exception} (h : Handled e) : Steps env S (requireSuccess status e) :=
  .ite (.pure _) (.throw h)

theorem raiseError_steps (message : String) : Steps env S (raiseError message : Action α) := .throw trivial

/-! ### Files -/

theorem access_steps (path : Bytes) : Steps env S (access env path) := syscall_steps _ _

theorem readFile_steps (path : Bytes) : Steps env S (readFile env path) :=
  .bind (syscall_steps _ _) fun _ => .pure _

theorem mkdirPrefix_steps (dir : Bytes) : Steps env S (mkdirPrefix env dir) := by
  refine .bind (syscall_steps _ _) fun res => ?_
  split
  · exact .pure _
  · exact .throw trivial
  · refine .bind (syscall_steps _ _) fun res => ?_
    split
    · exact .pure _
    · exact .throw trivial
  · exact .throw trivial

theorem mkdirParent_steps (path : Bytes) : Steps env S (mkdirParent env path) := .forM mkdirPrefix_steps

theorem storeToFile_steps (keyFile : KeyFile) (path : Bytes) : Steps env S (storeToFile env keyFile path) := by
  refine .bind (.bind (syscall_steps _ _) fun res => ?_) fun _ => .bind (syscall_steps _ _) fun res => ?_
  · split
    · exact .pure _
    · exact .throw trivial
  · split
    · exact .pure _
    · exact .op (.writeContents _ _)

/-! ### git -/

theorem gitConfig_steps (name value : Bytes) : Steps env S (gitConfig env name value) :=
  .bind (execCommand_steps rfl) fun _ => requireSuccess_steps trivial

theorem configureGitFilters_steps (keyName : Option Bytes) : Steps env S (configureGitFilters env keyName) := by
  cases keyName <;>
  exact .bind (gitConfig_steps _ _) fun _ => .bind (gitConfig_steps _ _) fun _ =>
    .bind (gitConfig_steps _ _) fun _ => gitConfig_steps _ _

theorem gitHasConfig_steps (name : Bytes) : Steps env S (gitHasConfig env name) := by
  refine .bind (execCommand_steps rfl) ?_
  rintro ⟨status, -⟩
  match status with
  | 0 => exact .pure _
  | 1 => exact .pure _
  | _ + 2 => exact raiseError_steps _

theorem getInternalKeysPath_steps : Steps env S (getInternalKeysPath env) :=
  .bind (.bind (execCommand_steps rfl) fun _ => .bind (requireSuccess_steps trivial) fun _ => .pure _) fun _ =>
    .pure _

theorem getInternalKeyPath_steps (keyName : Option Bytes) : Steps env S (getInternalKeyPath env keyName) :=
  .bind getInternalKeysPath_steps fun _ => .pure _

theorem getGitConfig_steps (name : Bytes) : Steps env S (getGitConfig env name) :=
  .bind (execCommand_steps rfl) fun _ => .bind (requireSuccess_steps trivial) fun _ => .pure _

theorem getRepoStatePath_steps : Steps env S (getRepoStatePath env) := by
  refine .bind (execCommand_steps rfl) fun _ => .bind (requireSuccess_steps trivial) fun _ =>
    .ite (.bind (raiseError_steps _) fun _ => ?_) ?_ <;>
  exact .bind (gitHasConfig_steps _) fun _ => .ite (.bind (getGitConfig_steps _) fun _ => .pure _) (.pure _)

theorem loaded_steps (load : KeyFile × Except KeyError IStream) : Steps env S (loaded load) := by
  unfold loaded
  split
  · exact .pure _
  · exact .throw trivial
  · exact .throw trivial

theorem loadKey_steps (keyName keyPath legacyPath : Option Bytes) :
    Steps env S (loadKey env keyName keyPath legacyPath) := by
  unfold loadKey
  split
  · refine .bind (readFile_steps _) fun res => ?_
    split
    · exact .throw trivial
    · exact loaded_steps _
  · refine .bind (readFile_steps _) fun res => ?_
    split
    · exact .throw trivial
    · exact loaded_steps _
  · refine .bind (getInternalKeyPath_steps _) fun _ => .bind (readFile_steps _) fun res => ?_
    split
    · exact raiseError_steps _
    · exact loaded_steps _

theorem gpgGetExecutable_steps : Steps env S (gpgGetExecutable env) :=
  .tryCatch (getGitConfig_steps _) fun _ _ => .pure _

theorem gpgNthColumn_handled {line : Bytes} {col : Nat} {e : Exception} (h : gpgNthColumn line col = .error e) :
    Handled e := by
  induction col generalizing line with
  | zero => cases h
  | succ col ih =>
    rw [gpgNthColumn] at h
    split_ifs at h
    · exact ih h
    · cases h
      trivial

theorem readUid_handled {lines : List Bytes} {e : Exception} (h : readUid lines = .error e) : Handled e := by
  induction lines with
  | nil => cases h
  | cons line lines ih =>
    rw [readUid] at h
    split_ifs at h
    · exact gpgNthColumn_handled h
    · exact ih h

theorem readPublicKeys_handled {isPubkey : Bool} {lines : List Bytes} {e : Exception}
    (h : readPublicKeys isPubkey lines = .error e) : Handled e := by
  induction lines generalizing isPubkey with
  | nil => cases h
  | cons line lines ih =>
    rw [readPublicKeys] at h
    split_ifs at h
    · exact ih h
    · exact ih h
    · split at h
      · cases h
        exact gpgNthColumn_handled ‹_›
      · cases h
        exact ih ‹_›
      · cases h
    · exact ih h

theorem gpgGetUid_steps (fingerprint : Bytes) : Steps env S (gpgGetUid env fingerprint) := by
  refine .bind gpgGetExecutable_steps fun _ => .bind (execCommand_steps rfl) fun _ => .ite (.pure _) ?_
  split
  · exact .pure _
  · exact .throw (readUid_handled ‹_›)

theorem gpgLookupKey_steps (query : Bytes) : Steps env S (gpgLookupKey env query) := by
  refine .bind gpgGetExecutable_steps fun _ => .bind (execCommand_steps rfl) fun _ => .ite (.pure _) ?_
  split
  · exact .pure _
  · exact .throw (readPublicKeys_handled ‹_›)

theorem gpgEncryptToFile_steps (filename recipientFingerprint : Bytes) (keyIsTrusted : Bool) {data : Bytes}
    (h : data ∈ S) : Steps env S (gpgEncryptToFile env filename recipientFingerprint keyIsTrusted data) := by
  refine .bind gpgGetExecutable_steps fun _ =>
    .bind (.op (.execCommand _ fun data' hdata => ?_)) fun _ => requireSuccess_steps trivial
  cases hdata
  exact h

theorem encryptRepoKeyTo_steps (keyName : Option Bytes) (keyVersion : UInt32) {keyFileData : Bytes} (keysPath : Bytes)
    (collabKeys : List (Bytes × Bool)) (h : keyFileData ∈ S) :
    Steps env S (encryptRepoKeyTo env keyName keyVersion keyFileData keysPath collabKeys) := by
  induction collabKeys with
  | nil => exact .pure _
  | cons collabKey collabKeys ih =>
    unfold encryptRepoKeyTo
    refine .bind (access_steps _) fun res => ?_
    split
    · exact ih
    · exact .bind (mkdirParent_steps _) fun _ => .bind (gpgEncryptToFile_steps _ _ _ h) fun _ =>
        .bind ih fun _ => .pure _

/-! ### Commands -/

theorem installKeyFile_steps (keyFile : KeyFile) (internalKeyPath : Bytes) :
    Steps env S (installKeyFile env keyFile internalKeyPath) :=
  .bind (mkdirParent_steps _) fun _ => .bind (storeToFile_steps _ _) fun _ =>
    .ite (.pure _) (.bind (logLines_steps _) fun _ => .pure _)

theorem lookupCollaborators_steps (trusted : Bool) (args : List Bytes) :
    Steps env S (lookupCollaborators env trusted args) := by
  induction args with
  | nil => exact .pure _
  | cons arg args ih =>
    refine .bind (gpgLookupKey_steps _) fun res => ?_
    split
    · exact .bind (logLines_steps _) fun _ => .pure _
    · refine .bind ih fun res => ?_
      split
      · exact .pure _
      · exact .pure _
    · exact .bind (logLines_steps _) fun _ => .pure _

theorem writeStateGitattributes_steps (path : Bytes) : Steps env S (writeStateGitattributes env path) := by
  refine .bind (access_steps _) fun res => ?_
  split
  · exact .pure _
  · refine .bind (.bind (syscall_steps _ _) fun res => ?_) fun _ =>
      .ite (.pure _) (.bind (logLines_steps _) fun _ => .pure _)
    split
    · exact .pure _
    · exact .op (.writeContents _ _)

theorem collaboratorLines_steps (collabKeys : List (Bytes × Bool)) : Steps env S (collaboratorLines env collabKeys) := by
  induction collabKeys with
  | nil => exact .pure _
  | cons collabKey collabKeys ih => exact .bind (gpgGetUid_steps _) fun _ => .bind ih fun _ => .pure _

/-- No subprocess was given anything to encrypt that is not in `S`. -/
def Encrypted (S : Set Bytes) (events : List Event) : Prop :=
  ∀ command status, Event.ran command status ∈ events → ∀ data ∈ command.plaintext, data ∈ S

theorem Encrypted.append {events events' : List Event} (h : Encrypted S events) (h' : Encrypted S events') :
    Encrypted S (events ++ events') := fun command status hmem =>
  (List.mem_append.mp hmem).elim (h command status) (h' command status)

theorem Encrypted.mono {S' : Set Bytes} {events : List Event} (h : Encrypted S events) (hle : S ⊆ S') :
    Encrypted S' events := fun command status hmem data hdata => hle (h command status hmem data hdata)

theorem encrypted_called (call : FileCall) (ok : Bool) : Encrypted S [.called call ok] := by
  intro command status hmem
  cases List.mem_singleton.mp hmem

/-- What an operation adds to the trace. -/
theorem Operation.trace {m : Action α} (hm : Operation env S α m) (w : World) :
    ∃ events, (m w).2.trace = w.trace ++ events ∧ Encrypted S events ∧ w.ops ≤ (m w).2.ops := by
  have hnone : Encrypted S [] := fun _ _ hmem => by cases hmem
  cases hm with
  | get => exact ⟨[], (List.append_nil _).symm, hnone, le_rfl⟩
  | @modify f h => exact ⟨[], (h w).2.1.trans (List.append_nil _).symm, hnone, (h w).2.2.ge⟩
  | execCommand command h =>
    have hran (status : Nat) : Encrypted S [.ran command status] := by
      intro command' status' hmem
      cases List.mem_singleton.mp hmem
      exact h
    unfold GitCrypt.execCommand
    dsimp only
    split_ifs
    · exact ⟨_, rfl, hran _, Nat.le_succ _⟩
    · refine ⟨_, congrArg (· ++ _) (Command.run_trace command w), hran _, ?_⟩
      exact (Command.run_ops command w).ge.trans (Nat.le_succ _)
  | syscall call effect =>
    unfold GitCrypt.syscall
    split_ifs
    · exact ⟨_, rfl, encrypted_called _ _, Nat.le_succ _⟩
    · split
      · exact ⟨_, rfl, encrypted_called _ _, Nat.le_succ _⟩
      · exact ⟨_, rfl, encrypted_called _ _, Nat.le_succ _⟩
  | writeContents path data =>
    unfold GitCrypt.writeContents
    dsimp only
    split
    · exact ⟨_, rfl, encrypted_called _ _, Nat.le_succ _⟩
    · exact ⟨_, rfl, encrypted_called _ _, Nat.le_succ _⟩
  | randomDraw => exact ⟨[], (List.append_nil _).symm, hnone, Nat.le_succ _⟩

/-- Whatever a program does, the operations before it have been done. -/
theorem Steps.maintains {m : Action α} (h : Steps env S m) (n : Nat) :
    Maintains (fun w => Encrypted S w.trace ∧ n ≤ w.ops) m := by
  have hop {α : Type} {m : Action α} (hm : Operation env S α m) : Triple (fun w => Encrypted S w.trace ∧ n ≤ w.ops) m
      (fun _ w => Encrypted S w.trace ∧ n ≤ w.ops) fun e w => Handled e ∧ Encrypted S w.trace ∧ n ≤ w.ops := by
    rintro w ⟨hw, hn⟩
    obtain ⟨events, htrace, hevents, hops⟩ := hm.trace w
    have hafter : Encrypted S (m w).2.trace ∧ n ≤ (m w).2.ops := by
      rw [htrace]
      exact ⟨hw.append hevents, hn.trans hops⟩
    rcases hrun : m w with ⟨e | a, w'⟩ <;> rw [hrun] at hafter
    · exact ⟨hm.handled hrun, hafter⟩
    · exact hafter
  exact (h.triple hop).weakenError fun _ _ he => he.2

end GitCrypt
