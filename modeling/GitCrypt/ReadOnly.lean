import GitCrypt.Commands

/-! The helpers that change neither the file tree nor the configuration, and of which nothing
else is seen. -/
namespace GitCrypt
open Iostream Posix
variable {α : Type} {env : Env}

/-- Whatever happens, the tree and the configuration stay as they are. -/
abbrev ReadsOnly (m : Action α) : Prop := Keeps World.toRepo m

/-- The events that tell what the program has done to the working tree and to the index. -/
def Event.visible : Event → Bool
  | .called (.utimes _) _ | .ran (.gitCheckout _) _ | .ran (.gitAdd _) _ | .ran (.gitCommit ..) _ => true
  | _ => false

/-- What a program leaves for others to see. -/
def World.seen (w : World) : Repo × List Event := (w.toRepo, w.trace.filter (·.visible))

/-- Whatever happens, nothing is seen of it. -/
abbrev Quiet (m : Action α) : Prop := Keeps World.seen m

theorem Quiet.readsOnly {m : Action α} (h : Quiet m) : ReadsOnly m := fun w => congrArg Prod.fst (h w)

theorem World.seen_note {w : World} {event : Event} (h : event.visible = false) : (w.note event).seen = w.seen := by
  rw [World.seen, World.note, List.filter_append, List.filter_cons_of_neg (by simp [h]), List.filter_nil,
    List.append_nil]
  rfl

/-- The subprocesses that change the tree or the configuration. -/
def Command.writes : Command → Bool
  | .gitConfig .. | .gitConfigRemoveSection _ | .gpgEncrypt .. => true
  | _ => false

theorem Command.run_of_not_writes {command : Command} (h : command.writes = false) (w : World) :
    (command.run env w).2.2.toRepo = w.toRepo := by
  cases command <;> simp_all only [Command.run, Command.writes, reduceCtorEq]
  case gitConfigGetAll name => split <;> rfl
  case gitConfigGet name => split <;> rfl
  case gpgListKeys program query => split <;> rfl
  case gpgListKeyUids program key => split <;> rfl
  case gpgDecrypt program filename =>
    split
    · rfl
    · split <;> rfl

/-- A subprocess does not reach into the process. -/
theorem Command.run_world (command : Command) (w : World) :
    ∃ repo, (command.run env w).2.2 = { w with toRepo := repo } := by
  refine ⟨(command.run env w).2.2.toRepo, ?_⟩
  cases command <;> simp only [Command.run]
  case gitConfigGetAll name => split <;> rfl
  case gitConfigGet name => split <;> rfl
  case gitConfigRemoveSection name => split <;> rfl
  case gpgListKeys program query => split <;> rfl
  case gpgListKeyUids program key => split <;> rfl
  case gpgEncrypt program trusted filename recipient data =>
    split
    · split <;> rfl
    · rfl
  case gpgDecrypt program filename =>
    split
    · rfl
    · split <;> rfl

/-- Only `exec_command` itself is recorded. -/
theorem Command.run_trace (command : Command) (w : World) : (command.run env w).2.2.trace = w.trace := by
  obtain ⟨repo, h⟩ := @Command.run_world env command w
  rw [h]

theorem Command.run_ops (command : Command) (w : World) : (command.run env w).2.2.ops = w.ops := by
  obtain ⟨repo, h⟩ := @Command.run_world env command w
  rw [h]

theorem execCommand_readsOnly {command : Command} (h : command.writes = false) :
    ReadsOnly (execCommand env command) := by
  intro w
  unfold execCommand
  dsimp only
  split_ifs
  · rfl
  · exact Command.run_of_not_writes h _

theorem execCommand_quiet {command : Command} (h : command.writes = false)
    (hv : ∀ status, (Event.ran command status).visible = false) : Quiet (execCommand env command) := by
  intro w
  unfold execCommand
  dsimp only
  split_ifs
  · exact World.seen_note (hv _)
  · refine (World.seen_note (hv _)).trans ?_
    rw [World.seen, World.seen, Command.run_of_not_writes h, Command.run_trace]

theorem syscall_readsOnly {call : FileCall} {effect : FileSystem → Except Errno (α × FileSystem)}
    (h : ∀ fs a fs', effect fs = .ok (a, fs') → fs' = fs) : ReadsOnly (syscall env call effect) := by
  intro w
  unfold syscall
  dsimp only
  split_ifs
  · rfl
  · split
    · rfl
    · rename_i a fs' hc
      rw [h w.fs a fs' hc]
      rfl

theorem syscall_quiet {call : FileCall} {effect : FileSystem → Except Errno (α × FileSystem)}
    (hv : ∀ ok, (Event.called call ok).visible = false)
    (h : ∀ fs a fs', effect fs = .ok (a, fs') → fs' = fs) : Quiet (syscall env call effect) := by
  intro w
  unfold syscall
  dsimp only
  split_ifs
  · exact World.seen_note (hv _)
  · split
    · exact World.seen_note (hv _)
    · rename_i a fs' hc
      rw [h w.fs a fs' hc]
      exact World.seen_note (hv _)

/-- A system call that returns the tree it was given. -/
private theorem eq_of_map_query {β : Type} {query : FileSystem → Except Errno β} {f : β → α} {fs fs' : FileSystem}
    {a : α} (h : (query fs).map (fun b => (f b, fs)) = .ok (a, fs')) : fs' = fs := by
  cases hq : query fs <;> rw [hq] at h <;> cases h
  rfl

theorem syscall_map_readsOnly {β : Type} {call : FileCall} {query : FileSystem → Except Errno β}
    {f : β → α} : ReadsOnly (syscall env call fun fs => (query fs).map fun b => (f b, fs)) :=
  syscall_readsOnly fun _ _ _ h => eq_of_map_query h

theorem syscall_map_quiet {β : Type} {call : FileCall} {query : FileSystem → Except Errno β} {f : β → α}
    (hv : ∀ ok, (Event.called call ok).visible = false) :
    Quiet (syscall env call fun fs => (query fs).map fun b => (f b, fs)) :=
  syscall_quiet hv fun _ _ _ h => eq_of_map_query h

theorem requireSuccess_quiet (status : Nat) (e : Exception) : Quiet (requireSuccess status e) :=
  .ite (.pure _) (.throw e)

theorem logLines_quiet (lines : List Bytes) : Quiet (logLines lines) := fun _ => rfl

theorem leave_quiet (status : Nat) (lines : List Bytes) : Quiet (leave status lines) :=
  .bind (logLines_quiet lines) fun _ => .pure _

/-- Leaving returns the status and adds to the messages. -/
theorem leave_triple {P : World → Prop} {Q : Nat → World → Prop} {E : Exception → World → Prop}
    {status : Nat} {lines : List Bytes}
    (h : ∀ w, P w → Q status { w with clog := w.clog ++ lines }) : Triple P (leave status lines) Q E := h

theorem randomDraw_quiet : Quiet (randomDraw env) := fun _ => rfl

theorem access_quiet (path : Bytes) : Quiet (access env path) := syscall_map_quiet fun _ => rfl

theorem readFile_quiet (path : Bytes) : Quiet (readFile env path) := by
  refine .bind (syscall_quiet (fun _ => rfl) fun fs bytes fs' h => ?_) fun _ => .pure _
  split at h <;> cases h <;> rfl

theorem touchFile_readsOnly (filename : Bytes) : ReadsOnly (touchFile env filename) := by
  refine .bind syscall_map_readsOnly fun res => ?_
  split
  · exact .pure _
  · exact .pure _
  · exact .throw _

theorem getDirectoryContents_quiet (path : Bytes) : Quiet (getDirectoryContents env path) := by
  refine .bind (syscall_map_quiet fun _ => rfl) fun res => ?_
  split
  · exact .throw _
  · refine .bind (syscall_map_quiet fun _ => rfl) fun res => ?_
    split
    · exact .pure _
    · exact .throw _

theorem validateKeyNameOrThrow_quiet (keyName : Bytes) : Quiet (validateKeyNameOrThrow keyName) := by
  unfold validateKeyNameOrThrow
  split
  · exact .pure _
  · exact .throw _

theorem gitVersion_quiet : Quiet (gitVersion env) := by
  refine .bind .get fun w => ?_
  split
  · exact .pure _
  · exact .bind (.bind (execCommand_quiet rfl fun _ => rfl) fun _ => .bind (requireSuccess_quiet _ _) fun _ =>
      .pure _) fun _ => .bind (fun _ => rfl) fun _ => .pure _

theorem gitHasConfig_quiet (name : Bytes) : Quiet (gitHasConfig env name) := by
  refine .bind (execCommand_quiet rfl fun _ => rfl) ?_
  rintro ⟨status, -⟩
  match status with
  | 0 => exact .pure _
  | 1 => exact .pure _
  | _ + 2 => exact .throw _

theorem gitHasAnyConfig_quiet (names : List Bytes) : Quiet (gitHasAnyConfig env names) := by
  induction names with
  | nil => exact .pure _
  | cons name names ih => exact .bind (gitHasConfig_quiet name) fun _ => .ite (.pure _) ih

theorem gitCheckoutBatch_readsOnly (paths : List Bytes) : ReadsOnly (gitCheckoutBatch env paths) :=
  .ite (.pure _) (.bind (execCommand_readsOnly rfl) fun _ => .pure _)

theorem gitCheckout_readsOnly (paths : List Bytes) : ReadsOnly (gitCheckout env paths) := by
  fun_induction gitCheckout env paths with
  | case1 paths h ih =>
    exact .bind (gitCheckoutBatch_readsOnly _) fun _ => .ite (.pure _) ih
  | case2 paths h => exact gitCheckoutBatch_readsOnly paths

theorem getInternalStatePath_quiet : Quiet (getInternalStatePath env) :=
  .bind (execCommand_quiet rfl fun _ => rfl) fun _ => .bind (requireSuccess_quiet _ _) fun _ => .pure _

theorem getInternalKeysPath_quiet : Quiet (getInternalKeysPath env) :=
  .bind getInternalStatePath_quiet fun _ => .pure _

theorem getInternalKeyPath_quiet (keyName : Option Bytes) : Quiet (getInternalKeyPath env keyName) :=
  .bind getInternalKeysPath_quiet fun _ => .pure _

theorem getGitConfig_quiet (name : Bytes) : Quiet (getGitConfig env name) :=
  .bind (execCommand_quiet rfl fun _ => rfl) fun _ => .bind (requireSuccess_quiet _ _) fun _ => .pure _

theorem getRepoKeysPath_quiet : Quiet (getRepoKeysPath env) := by
  refine .bind (.bind (execCommand_quiet rfl fun _ => rfl) fun _ => .bind (requireSuccess_quiet _ _) fun _ =>
    ?_) fun _ => .pure _
  refine .ite (.bind (.throw _) fun _ => ?_) ?_ <;>
  exact .bind (gitHasConfig_quiet _) fun _ => .ite (.bind (getGitConfig_quiet _) fun _ => .pure _) (.pure _)

theorem getGitStatus_quiet : Quiet (getGitStatus env) :=
  .bind (execCommand_quiet rfl fun _ => rfl) fun _ => .bind (requireSuccess_quiet _ _) fun _ => .pure _

theorem filterAttributes_quiet (filenames : List Bytes) : Quiet (filterAttributes env filenames) := by
  induction filenames with
  | nil => exact .pure _
  | cons filename filenames ih =>
    exact .bind (.bind (execCommand_quiet rfl fun _ => rfl) fun _ => .bind (requireSuccess_quiet _ _) fun _ =>
      .pure _) fun _ => .bind ih fun _ => .pure _

theorem getPathToTop_quiet : Quiet (getPathToTop env) :=
  .bind (execCommand_quiet rfl fun _ => rfl) fun _ => .bind (requireSuccess_quiet _ _) fun _ => .pure _

theorem getEncryptedFiles_quiet (keyName : Option Bytes) : Quiet (getEncryptedFiles env keyName) := by
  refine .bind getPathToTop_quiet fun _ => .bind (execCommand_quiet rfl fun _ => rfl) fun _ => .bind gitVersion_quiet fun _ => ?_
  refine .ite ?_ ?_
  · exact .bind (execCommand_quiet rfl fun _ => rfl) fun _ => .bind (requireSuccess_quiet _ _) fun _ =>
      .bind (requireSuccess_quiet _ _) fun _ => .pure _
  · exact .bind (filterAttributes_quiet _) fun _ => .bind (requireSuccess_quiet _ _) fun _ => .pure _

theorem checkOutFiles_readsOnly (encryptedFiles failure : List Bytes) :
    ReadsOnly (checkOutFiles env encryptedFiles failure) :=
  .bind (.forM touchFile_readsOnly) fun _ => .bind (gitCheckout_readsOnly _) fun _ =>
    .ite (.pure _) (leave_quiet _ _).readsOnly

theorem loaded_quiet (load : KeyFile × Except KeyError IStream) : Quiet (loaded load) := by
  unfold loaded
  split
  · exact .pure _
  · exact .throw _
  · exact .throw _

theorem gpgGetExecutable_quiet : Quiet (gpgGetExecutable env) :=
  .tryCatch (getGitConfig_quiet _) fun _ => .pure _

theorem gpgListSecretKeys_quiet : Quiet (gpgListSecretKeys env) := by
  refine .bind gpgGetExecutable_quiet fun _ => .bind (execCommand_quiet rfl fun _ => rfl) ?_
  rintro ⟨status, output⟩
  refine .bind (requireSuccess_quiet _ _) fun _ => ?_
  split
  · exact .pure _
  · exact .throw _

theorem gpgDecryptFromFile_quiet (filename : Bytes) : Quiet (gpgDecryptFromFile env filename) :=
  .bind gpgGetExecutable_quiet fun _ => .bind (execCommand_quiet rfl fun _ => rfl) fun _ =>
    .bind (requireSuccess_quiet _ _) fun _ => .pure _

theorem tryGpgDecrypt_quiet (path : Bytes) : Quiet (tryGpgDecrypt env path) := by
  refine .tryCatch (.bind (gpgDecryptFromFile_quiet path) fun _ => .pure _) fun e => ?_
  split
  · exact .pure _
  · exact .throw _

theorem acceptRepoKey_quiet (keyFile : KeyFile) (keyName : Option Bytes) (keyVersion : UInt32)
    (decryptedContents : IStream) :
    Quiet (acceptRepoKey keyFile keyName keyVersion decryptedContents) := by
  refine .bind (loaded_quiet _) fun thisVersionKeyFile => ?_
  split
  · exact .throw _
  · exact .ite (.bind (.throw _) fun _ => .pure _) (.pure _)

theorem decryptRepoKeyWith_quiet (keyFile : KeyFile) (keyName : Option Bytes) (keyVersion : UInt32)
    (keysPath : Bytes) (gpgError : Option Exception) (secretKeys : List Bytes) :
    Quiet (decryptRepoKeyWith env keyFile keyName keyVersion keysPath gpgError secretKeys) := by
  induction secretKeys generalizing gpgError with
  | nil =>
    unfold decryptRepoKeyWith
    split
    · exact .throw _
    · exact .pure _
  | cons seckey secretKeys ih =>
    refine .bind (access_quiet _) fun res => ?_
    split
    · exact ih _
    · refine .bind (tryGpgDecrypt_quiet _) fun res => ?_
      split
      · exact ih _
      · exact .bind (acceptRepoKey_quiet _ _ _ _) fun _ => .pure _

theorem decryptRepoKeysOf_quiet (keyVersion : UInt32) (secretKeys : List Bytes) (keysPath : Bytes)
    (dirents : List Bytes) :
    Quiet (decryptRepoKeysOf env keyVersion secretKeys keysPath dirents) := by
  induction dirents with
  | nil => exact .pure _
  | cons dirent dirents ih =>
    unfold decryptRepoKeysOf
    split
    · exact ih
    · exact .bind (decryptRepoKeyWith_quiet _ _ _ _ _ _) fun _ => .bind ih fun _ => .pure _

theorem decryptRepoKeys_quiet (keyVersion : UInt32) (secretKeys : List Bytes) (keysPath : Bytes) :
    Quiet (decryptRepoKeys env keyVersion secretKeys keysPath) := by
  refine .bind (access_quiet _) fun res => ?_
  split
  · exact .pure _
  · exact .bind (getDirectoryContents_quiet _) fun _ => decryptRepoKeysOf_quiet _ _ _ _

theorem loadSymmetricKeyFile_quiet (symmetricKeyFile : Bytes) :
    Quiet (loadSymmetricKeyFile env symmetricKeyFile) := by
  refine .ite (.bind .get fun w => ?_) (.bind (readFile_quiet _) fun res => ?_)
  · dsimp only
    split
    · exact .bind (fun _ => rfl) fun _ => .bind (loaded_quiet _) fun _ => .pure _
    · exact .bind (loaded_quiet _) fun _ => .pure _
  · split
    · exact .bind (logLines_quiet _) fun _ => .pure _
    · exact .bind (loaded_quiet _) fun _ => .pure _

theorem readSymmetricKeyFile_quiet (symmetricKeyFile : Bytes) :
    Quiet (readSymmetricKeyFile env symmetricKeyFile) := by
  refine .tryCatch (loadSymmetricKeyFile_quiet _) fun e => ?_
  split
  · exact .bind (logLines_quiet _) fun _ => .pure _
  · exact .bind (logLines_quiet _) fun _ => .pure _
  · exact .throw _

theorem readSymmetricKeyFiles_quiet (args : List Bytes) : Quiet (readSymmetricKeyFiles env args) := by
  induction args with
  | nil => exact .pure _
  | cons symmetricKeyFile args ih =>
    refine .bind (readSymmetricKeyFile_quiet _) fun res => ?_
    split
    · exact .pure _
    · refine .bind ih fun res => ?_
      split
      · exact .pure _
      · exact .pure _

theorem unlockKeyFiles_quiet (args : List Bytes) : Quiet (unlockKeyFiles env args) := by
  refine .ite (readSymmetricKeyFiles_quiet args) ?_
  refine .bind getRepoKeysPath_quiet fun _ => .bind gpgListSecretKeys_quiet fun _ =>
    .bind (decryptRepoKeys_quiet _ _ _) fun res => ?_
  split
  · exact .bind (logLines_quiet _) fun _ => .pure _
  · exact .pure _

theorem generateKey_quiet (keyFile : KeyFile) : Quiet (generateKey env keyFile) := by
  refine .bind randomDraw_quiet fun draw => ?_
  split
  · exact .pure _
  · exact .throw _

/-! ### The standard streams -/

/-- The standard streams are as they were. -/
abbrev KeepsStreams (m : Action α) : Prop := Keeps (fun w : World => (w.cin, w.cout)) m

theorem execCommand_keepsStreams (command : Command) : KeepsStreams (execCommand env command) := by
  have hrun (w : World) : ((command.run env w).2.2.cin, (command.run env w).2.2.cout) = (w.cin, w.cout) := by
    obtain ⟨repo, h⟩ := @Command.run_world env command w
    rw [h]
  intro w
  unfold execCommand
  dsimp only
  split_ifs
  · rfl
  · exact hrun w

theorem syscall_keepsStreams (call : FileCall) (effect : FileSystem → Except Errno (α × FileSystem)) :
    KeepsStreams (syscall env call effect) := by
  intro w
  unfold syscall
  dsimp only
  split_ifs
  · rfl
  · cases effect w.fs <;> rfl

theorem readFile_keepsStreams (path : Bytes) : KeepsStreams (readFile env path) :=
  .bind (syscall_keepsStreams _ _) fun _ => .pure _

theorem loaded_keepsStreams (load : KeyFile × Except KeyError IStream) : KeepsStreams (loaded load) := by
  unfold loaded
  split
  · exact .pure _
  · exact .throw _
  · exact .throw _

end GitCrypt
