import GitCrypt.Processes

/-! What processes leave behind that neither install, remove nor share a key: at most the files that
their arguments name. -/
namespace GitCrypt
open Iostream Posix FileSystem Prog
variable {α : Type} {env : Env} {genv : GitEnv}

/-- The file an argument names, `-` being a standard stream. -/
def namedFile (fileName : Bytes) : Option Bytes := if fileName = str "-" then none else some fileName

def exportFootprint (args : List Bytes) : Option (Option Bytes) :=
  match parseOptions (keyNameOptions fun value _ => some value) (none : Option Bytes) args with
  | .ok (_, [outFileName]) => some (namedFile outFileName)
  | _ => some none

def keygenFootprint : List Bytes → Option (Option Bytes)
  | [keyFileName] => some (namedFile keyFileName)
  | _ => some none

def migrateFootprint : List Bytes → Option (Option Bytes)
  | [_, newKeyFileName] => some (namedFile newKeyFileName)
  | _ => some none

def statusFootprint (args : List Bytes) : Option (Option Bytes) :=
  match parseOptions statusOptions {} args with
  | .ok (vars, _) => if vars.fixProblems then none else some none
  | .error _ => some none

/-- The file that a command may write. The outer none is for the commands that do more. -/
def footprintOf (command : Bytes) (args : List Bytes) : Option (Option Bytes) :=
  if command = str "init" ∨ command = str "unlock" ∨ command = str "lock" ∨ command = str "add-gpg-user" then none
  else if command = str "export-key" then exportFootprint args
  else if command = str "keygen" then keygenFootprint args
  else if command = str "migrate-key" then migrateFootprint args
  else if command = str "status" then statusFootprint args
  else some none

/-- The same for all arguments of a process. -/
def footprint (args : List Bytes) : Option (Option Bytes) :=
  (commandLine args).elim (some none) fun line => footprintOf line.1 line.2

/-! ### Commands that only look -/

theorem getFileAttributes_quiet (filename : Bytes) : Quiet (getFileAttributes env filename) :=
  .bind (execCommand_quiet rfl fun _ => rfl) fun _ => .bind (requireSuccess_quiet _ _) fun _ => .pure _

theorem loadKey_quiet (keyName keyPath legacyPath : Option Bytes) :
    Quiet (loadKey env keyName keyPath legacyPath) := by
  unfold loadKey
  split
  · refine .bind (readFile_quiet _) fun res => ?_
    split
    · exact .throw _
    · exact loaded_quiet _
  · refine .bind (readFile_quiet _) fun res => ?_
    split
    · exact .throw _
    · exact loaded_quiet _
  · refine .bind (getInternalKeyPath_quiet _) fun _ => .bind (readFile_quiet _) fun res => ?_
    split
    · exact .throw _
    · exact loaded_quiet _

theorem loadLegacyKeyFile_quiet (keyFileName : Bytes) : Quiet (loadLegacyKeyFile env keyFileName) := by
  refine .ite (.bind .get fun w => .bind (loaded_quiet _) fun _ => .pure _) (.bind (readFile_quiet _) fun res => ?_)
  split
  · exact .pure _
  · exact .bind (loaded_quiet _) fun _ => .pure _

theorem perform_quiet (run : FilterRun) : Quiet run.perform := fun _ => rfl

theorem printLines_quiet (lines : List Bytes) : Quiet (printLines lines) := .forM fun _ _ => rfl

theorem help_quiet (argv0 : Bytes) (args : List Bytes) : Quiet (help argv0 args) := by
  unfold help
  split
  · exact .bind (printLines_quiet _) fun _ => .pure _
  · split
    · exact leave_quiet _ _
    · exact .bind (printLines_quiet _) fun _ => .pure _

theorem filterStdin_quiet (usage : Bytes) (filter : KeyFile → IStream → FilterRun) (args : List Bytes) :
    Quiet (filterStdin env usage filter args) := by
  unfold filterStdin
  split
  · exact .throw _
  · split
    · exact leave_quiet _ _
    · exact .bind (loadKey_quiet _ _ _) fun _ => .bind .get fun _ => perform_quiet _

theorem diff_quiet (P : Primitives) (args : List Bytes) : Quiet (diff P env args) := by
  unfold diff
  split
  · exact .throw _
  · split
    · exact leave_quiet _ _
    · refine .bind (loadKey_quiet _ _ _) fun _ => .bind (syscall_map_quiet fun _ => rfl) fun res => ?_
      split
      · exact perform_quiet _
      · exact .throw _
      · exact leave_quiet _ _

/-! ### `status` without `-f` -/

/-- Nothing is seen of it in the tree, the configuration and the index. -/
abbrev Idle (m : StatusAction α) : Prop := Keeps (fun s : World × GitState => (s.1.seen, s.2)) m

theorem Quiet.onFst {m : Action α} (h : Quiet m) : Idle (Prog.onFst m) := fun s =>
  Prod.ext (h s.1) rfl

theorem execIndexCommand_idle {command : IndexCommand} (hadded : command.added = [])
    (hrun : ∀ w g, (command.run genv w g).2.2 = g) : Idle (execIndexCommand env genv command) := by
  intro s
  unfold execIndexCommand
  dsimp only
  rw [hadded, List.append_nil]
  split_ifs
  · rfl
  · rw [hrun]
    rfl

theorem checkIfObjectIsEncrypted_idle (objectId : Bytes) : Idle (checkIfObjectIsEncrypted env genv objectId) := by
  refine .bind (execIndexCommand_idle rfl fun w g => ?_) fun _ => .bind (requireSuccess_quiet _ _).onFst fun _ =>
    .pure _
  simp only [IndexCommand.run]
  cases g.blobs objectId <;> rfl

theorem statusFile_idle {vars : StatusOptions} (hfix : vars.fixProblems = false) (totals : StatusTotals)
    (filename objectId : Bytes) : Idle (statusFile env genv vars totals filename objectId) := by
  have hunencrypted : Idle (blobIsUnencrypted env genv objectId) :=
    .ite (.pure _) (.bind (checkIfObjectIsEncrypted_idle _) fun _ => .pure _)
  have hprint (bytes : Bytes) : Quiet (printLine bytes) := fun _ => rfl
  refine .bind (getFileAttributes_quiet _).onFst fun _ => .ite (.bind hunencrypted fun unencrypted => ?_) ?_
  · rw [hfix, Bool.false_and, if_neg Bool.false_ne_true]
    exact .ite (.bind (hprint _).onFst fun _ => .pure _) (.pure _)
  · exact .ite (.bind (hprint _).onFst fun _ => .pure _) (.pure _)

theorem statusFiles_idle {vars : StatusOptions} (hfix : vars.fixProblems = false) (totals : StatusTotals)
    (files : List (Bytes × Bytes)) : Idle (statusFiles env genv vars totals files) := by
  induction files generalizing totals with
  | nil => exact .pure _
  | cons file files ih => exact .bind (statusFile_idle hfix _ _ _) fun _ => ih _

theorem status_idle {args : List Bytes}
    (hfix : ∀ vars files, parseOptions statusOptions {} args = .ok (vars, files) → vars.fixProblems = false) :
    Idle (status env genv args) := by
  unfold status
  split
  · exact .throw _
  · rename_i vars files hparse
    have hprint (bytes : Bytes) : Quiet (print bytes) := fun _ => rfl
    have hpaths : Quiet (statusPaths env files) := .ite (.pure _) (.bind getPathToTop_quiet fun _ => .pure _)
    cases vars.refusal files with
    | some message => exact (leave_quiet _ _).onFst
    | none =>
      refine .ite (.pure _) (.bind hpaths.onFst fun _ => .bind (execIndexCommand_idle rfl fun _ _ => rfl) fun _ =>
        .bind (requireSuccess_quiet _ _).onFst fun _ => ?_)
      exact .bind (statusFiles_idle (hfix vars files hparse) _ _) fun _ => .bind (hprint _).onFst fun _ => .pure _

/-! ### Commands that write one file -/

/-- Of a repository, nothing is changed but files at some locations. -/
structure WritesOnly (S : Location → Prop) (r₀ : Repo) (s : Repo × List Event) : Prop where
  tree : r₀.fs.ChangesOnly S s.1.fs
  dirs : s.1.fs.DirsIn r₀.fs
  config : s.1.config = r₀.config
  events : s.2 = []

theorem WritesOnly.refl (S : Location → Prop) (r₀ : Repo) : WritesOnly S r₀ (r₀, []) :=
  ⟨.refl S r₀.fs, fun _ => id, rfl, rfl⟩

/-- Where a path leads from the working directory. -/
def LeadsTo (env : Env) (r₀ : Repo) (path : Option Bytes) (loc : Location) : Prop :=
  ∃ p ∈ path, r₀.fs.resolve env.cwd p = .ok loc

/-- Writing to the file keeps to it: the directories are still the same. -/
theorem WritesOnly.writeFile {r₀ : Repo} {path : Bytes} {s : Repo × List Event} {edit : Bytes → Bytes}
    {fs : FileSystem} (h : WritesOnly (LeadsTo env r₀ (some path)) r₀ s)
    (hwrite : s.1.fs.writeFile env.cwd path edit = .ok fs) :
    WritesOnly (LeadsTo env r₀ (some path)) r₀ ({ s.1 with fs }, s.2) := by
  obtain ⟨loc, bytes, hresolve, hchanges, hfile⟩ := writeFile_changesOnly hwrite
  obtain ⟨name, loc', hresolve', hnodir, hdiffers⟩ := writeFile_ok hwrite
  have hleads : LeadsTo env r₀ (some path) loc := ⟨path, rfl, resolve_of_dirsIn h.dirs hresolve⟩
  refine ⟨h.tree.trans ⟨hchanges.dirs, fun loc'' hother => hchanges.files loc'' ?_⟩, fun loc'' hdir => ?_,
    h.config, h.events⟩
  · rintro rfl
    exact hother hleads
  · refine h.dirs loc'' ?_
    rw [hdiffers loc''] at hdir
    split_ifs at hdir
    · cases hdir
    · exact hdir

theorem outputKeyFile_writesOnly (r₀ : Repo) (keyFile : KeyFile) (outFileName : Bytes) :
    Preserves (WritesOnly (LeadsTo env r₀ (namedFile outFileName)) r₀) (outputKeyFile env keyFile outFileName) := by
  unfold outputKeyFile namedFile
  split_ifs with hname
  · exact (show Quiet _ from .bind (fun _ => rfl) fun _ => .pure _).preserves _
  · exact .bind (storeToFile_preserves (fun s edit fs hs hw => hs.writeFile hw) keyFile) fun _ =>
      .ite (fun _ => .pure _) fun _ => (leave_quiet _ _).preserves _

theorem exportKey_writesOnly (r₀ : Repo) {args : List Bytes} {keyName : Option Bytes} {outFileName : Bytes}
    (h : parseOptions (keyNameOptions fun value _ => some value) (none : Option Bytes) args =
      .ok (keyName, [outFileName])) :
    Preserves (WritesOnly (LeadsTo env r₀ (namedFile outFileName)) r₀) (exportKey env args) := by
  unfold exportKey
  rw [h]
  exact .bind ((loadKey_quiet _ _ _).preserves _) fun _ => outputKeyFile_writesOnly r₀ _ _

theorem exportKey_quiet {args : List Bytes}
    (h : ∀ keyName outFileName, parseOptions (keyNameOptions fun value _ => some value) (none : Option Bytes) args ≠
      .ok (keyName, [outFileName])) : Quiet (exportKey env args) := by
  unfold exportKey
  split
  · exact .throw _
  · rename_i keyName rest hparse
    rw [if_pos]
    · exact leave_quiet _ _
    · intro hlength
      obtain ⟨outFileName, rfl⟩ := List.length_eq_one_iff.mp hlength
      exact h keyName outFileName hparse

theorem keygen_writesOnly (r₀ : Repo) (keyFileName : Bytes) :
    Preserves (WritesOnly (LeadsTo env r₀ (namedFile keyFileName)) r₀) (keygen env [keyFileName]) := by
  have hkey : Preserves (WritesOnly (LeadsTo env r₀ (namedFile keyFileName)) r₀) (keygenTo env keyFileName) :=
    .bind ((logLines_quiet _).preserves _) fun _ => .bind ((generateKey_quiet _).preserves _) fun _ =>
      outputKeyFile_writesOnly r₀ _ _
  unfold keygen
  refine .ite (fun _ => hkey) fun _ => .bind ((access_quiet _).preserves _) fun res => ?_
  split
  · exact (leave_quiet _ _).preserves _
  · exact hkey

theorem migrateKey_writesOnly (r₀ : Repo) (keyFileName newKeyFileName : Bytes) :
    Preserves (WritesOnly (LeadsTo env r₀ (namedFile newKeyFileName)) r₀)
      (migrateKey env [keyFileName, newKeyFileName]) := by
  refine Triple.tryCatch (R := fun _ w => WritesOnly (LeadsTo env r₀ (namedFile newKeyFileName)) r₀ w.seen)
    (Maintains.bind ((loadLegacyKeyFile_quiet _).preserves _) fun res => ?_) fun e => ?_
  · split
    · exact (leave_quiet _ _).preserves _
    · exact outputKeyFile_writesOnly r₀ _ _
  · split
    · exact (leave_quiet _ _).preserves _
    · exact Maintains.throw _

/-! ### Processes -/

section
variable {P : Primitives} {argv0 : Bytes} {i : Invoked} {r₀ : Repo} {g : GitState} {path : Option Bytes}

/-- The index is as it was, and of the repository only the file is changed. -/
def Within (env : Env) (path : Option Bytes) (r₀ : Repo) (g : GitState) (s : World × GitState) : Prop :=
  WritesOnly (LeadsTo env r₀ path) r₀ s.1.seen ∧ s.2 = g

theorem onFst_within {m : Action α} (h : Preserves (WritesOnly (LeadsTo env r₀ path) r₀) m) :
    Maintains (Within env path r₀ g) (onFst m) :=
  Triple.onFst h (· = g)

theorem Quiet.within {m : Action α} (h : Quiet m) : Maintains (Within env path r₀ g) (Prog.onFst m) :=
  onFst_within (h.preserves _)

theorem Idle.within {m : StatusAction α} (h : Idle m) : Maintains (Within env path r₀ g) m :=
  h.triple fun s => WritesOnly (LeadsTo env r₀ path) r₀ s.1 ∧ s.2 = g

/-- The handler, if there is one, keeps within the footprint. -/
def HandlerWithin (env : Env) (path : Option Bytes) (r₀ : Repo) (g : GitState)
    (run : Option (StatusAction Nat)) : Prop :=
  ∀ m, run = some m → Maintains (Within env path r₀ g) m

theorem handlerWithin_some {m : StatusAction Nat} (h : Maintains (Within env path r₀ g) m) :
    HandlerWithin env path r₀ g (some m) := by
  intro m' hm
  cases hm
  exact h

theorem handlerWithin_ite {c : Prop} [Decidable c] {run run' : Option (StatusAction Nat)}
    (h : c → HandlerWithin env path r₀ g run) (h' : ¬ c → HandlerWithin env path r₀ g run') :
    HandlerWithin env path r₀ g (if c then run else run') := by
  split_ifs with hc
  · exact h hc
  · exact h' hc

theorem exportKey_within {args : List Bytes} (h : footprintOf (str "export-key") args = some path) :
    Maintains (Within env path r₀ g) (onFst (exportKey env args)) := by
  unfold footprintOf at h
  rw [if_neg (by decide), if_pos rfl, exportFootprint] at h
  split at h
  · cases h
    exact onFst_within (exportKey_writesOnly r₀ ‹_›)
  · rename_i hparse
    exact (exportKey_quiet hparse).within

theorem keygen_within {args : List Bytes} (h : footprintOf (str "keygen") args = some path) :
    Maintains (Within env path r₀ g) (onFst (keygen env args)) := by
  unfold footprintOf at h
  rw [if_neg (by decide), if_neg (by decide), if_pos rfl] at h
  unfold keygenFootprint at h
  split at h
  · cases h
    exact onFst_within (keygen_writesOnly r₀ _)
  · rename_i hargs
    have hquiet : Quiet (keygen env args) := by
      unfold keygen
      split
      · exact absurd rfl (hargs _)
      · exact leave_quiet _ _
    exact hquiet.within

theorem migrateKey_within {args : List Bytes} (h : footprintOf (str "migrate-key") args = some path) :
    Maintains (Within env path r₀ g) (onFst (migrateKey env args)) := by
  unfold footprintOf at h
  rw [if_neg (by decide), if_neg (by decide), if_neg (by decide), if_pos rfl] at h
  unfold migrateFootprint at h
  split at h
  · cases h
    exact onFst_within (migrateKey_writesOnly r₀ _ _)
  · rename_i hargs
    have hquiet : Quiet (migrateKey env args) := by
      unfold migrateKey
      split
      · exact absurd rfl (hargs _ _)
      · exact leave_quiet _ _
    exact hquiet.within

theorem status_within {args : List Bytes} (h : footprintOf (str "status") args = some path) :
    Maintains (Within env path r₀ g) (status env genv args) := by
  unfold footprintOf at h
  rw [if_neg (by decide), if_neg (by decide), if_neg (by decide), if_neg (by decide), if_pos rfl] at h
  refine (status_idle fun vars files hparse => ?_).within
  rw [statusFootprint, hparse] at h
  dsimp only at h
  split_ifs at h with hfix
  exact Bool.eq_false_iff.mpr hfix

theorem handler_within (command : Bytes) {args : List Bytes} (h : footprintOf command args = some path) :
    HandlerWithin i.env path r₀ g (handler P argv0 i command args) := by
  have hmore {c : Bytes} (hc : c = str "init" ∨ c = str "unlock" ∨ c = str "lock" ∨ c = str "add-gpg-user")
      (run : Option (StatusAction Nat)) (he : command = c) : HandlerWithin i.env path r₀ g run := by
    unfold footprintOf at h
    rw [he, if_pos hc] at h
    cases h
  have hquiet {m : Action Nat} (hm : Quiet m) {c : Prop} (_ : c) :
      HandlerWithin i.env path r₀ g (some (onFst m)) := handlerWithin_some hm.within
  refine handlerWithin_ite (hquiet (help_quiet _ _)) fun _ => ?_
  refine handlerWithin_ite (hquiet (.bind (printLines_quiet _) fun _ => .pure _)) fun _ => ?_
  refine handlerWithin_ite (hmore (by simp) _) fun _ => handlerWithin_ite (hmore (by simp) _) fun _ => ?_
  refine handlerWithin_ite (hmore (by simp) _) fun _ => handlerWithin_ite (hmore (by simp) _) fun _ => ?_
  refine handlerWithin_ite (hquiet (leave_quiet _ _)) fun _ => handlerWithin_ite (hquiet (leave_quiet _ _)) fun _ => ?_
  refine handlerWithin_ite (fun he => handlerWithin_some (exportKey_within (he ▸ h))) fun _ => ?_
  refine handlerWithin_ite (fun he => handlerWithin_some (keygen_within (he ▸ h))) fun _ => ?_
  refine handlerWithin_ite (fun he => handlerWithin_some (migrateKey_within (he ▸ h))) fun _ => ?_
  refine handlerWithin_ite (hquiet (leave_quiet _ _)) fun _ => ?_
  refine handlerWithin_ite (fun he => handlerWithin_some (status_within (he ▸ h))) fun _ => ?_
  refine handlerWithin_ite (hquiet (filterStdin_quiet _ _ _)) fun _ => ?_
  refine handlerWithin_ite (hquiet (filterStdin_quiet _ _ _)) fun _ => handlerWithin_ite (hquiet (diff_quiet _ _)) ?_
  intro _ m hm
  cases hm

end

theorem WritesOnly.mono {S T : Location → Prop} {r₀ : Repo} {s : Repo × List Event} (h : WritesOnly S r₀ s)
    (hST : ∀ loc, S loc → T loc) : WritesOnly T r₀ s :=
  { h with tree := ⟨h.tree.dirs, fun loc hloc => h.tree.files loc fun hS => hloc (hST loc hS)⟩ }

theorem WritesOnly.trans {S : Location → Prop} {r₀ r : Repo} {events : List Event} {s : Repo × List Event}
    (h : WritesOnly S r₀ (r, events)) (h' : WritesOnly S r s) : WritesOnly S r₀ (s.1, events ++ s.2) where
  tree := h.tree.trans h'.tree
  dirs loc hdir := h.dirs loc (h'.dirs loc hdir)
  config := h'.config.trans h.config
  events := by rw [show events = [] from h.events, h'.events, List.append_nil]

/-- `git-crypt keygen key`, beside a git that adds nothing. -/
def keygenProcess : Process where
  invoked :=
    { env := freshEnv
      genv :=
        { listing := fun _ _ _ => []
          add :=
            { run := fun _ g _ => (1, g)
              others := fun _ _ _ _ _ => rfl
              single := fun _ _ _ h => by cases h
              blobs := fun _ _ _ _ _ h => h } }
      strerror := fun _ => []
      what := [] }
  argv0 := str "git-crypt"
  args := [str "keygen", str "key"]

/-- An index without entries. -/
def emptyGit : GitState := { index := ⟨[], by decide⟩, blobs := fun _ => none }

end GitCrypt
