import GitCrypt.Installation
import GitCrypt.KeyCommands
import GitCrypt.Runs

/-! Where the key names given with `-k` lead, and which commands check them. -/
namespace GitCrypt
open Iostream Posix

/-- The commands with an option for the key name. -/
inductive KeyCommand where
  | init
  | lock
  | exportKey
  | addGpgUser
  | clean
  | smudge
  | diff
  deriving DecidableEq

namespace KeyCommand

def run (P : Primitives) (env : Env) (args : List Bytes) : KeyCommand → Action Nat
  | init => GitCrypt.init env args
  | lock => GitCrypt.lock env args
  | exportKey => GitCrypt.exportKey env args
  | addGpgUser => GitCrypt.addGpgUser env args
  | clean => GitCrypt.clean P env args
  | smudge => GitCrypt.smudge P env args
  | diff => GitCrypt.diff P env args

/-- The key name the arguments give, by the options of the command. -/
def keyName (args : List Bytes) : KeyCommand → Option Bytes
  | init | exportKey =>
    (parseOptions (keyNameOptions fun value _ => some value) none args).toOption.bind (·.1)
  | lock => (parseOptions lockOptions {} args).toOption.bind (·.1.keyName)
  | addGpgUser => (parseOptions addGpgUserOptions {} args).toOption.bind (·.1.keyName)
  | clean | smudge | diff => (parsePlumbingOptions args).toOption.bind (·.1.keyName)

end KeyCommand

/-- A call that reads, writes or deletes what is at a path. -/
def Event.Acts (path : Bytes) : Event → Prop
  | .called (.stat _) _ | .ran .. => False
  | .called call _ => call.path = path

/-- The command never succeeds with the name, and never acts on the path it stands for. -/
def Rejects (P : Primitives) (command : KeyCommand) (name : Bytes) : Prop :=
  ∀ (env : Env) (repo : Repo) (args : List Bytes), command.keyName args = some name →
    (command.run P env args (repo.start env)).1 ≠ .ok 0 ∧
      ∀ event ∈ (command.run P env args (repo.start env)).2.trace,
        ¬ event.Acts (internalKeyPath env (some name))

/-- Whatever path `get_internal_key_path` makes of the name, it is not that of the default key
and leads to an entry of the directory of the keys. -/
def StaysInside (name : Bytes) : Prop :=
  ∀ (env : Env) (w w' : World) (path : Bytes), getInternalKeyPath env (some name) w = (.ok path, w') →
    path ≠ internalKeyPath env none ∧
      ∀ (gitDir : Location) (repo : Repo) (loc : Location), Located env gitDir repo →
        repo.fs.resolve env.cwd path = .ok loc →
        loc ≠ keyLocation gitDir none ∧
          ∃ dirent, IsName dirent ∧ loc = dirent :: str "keys" :: str "git-crypt" :: gitDir

def Confined (P : Primitives) (command : KeyCommand) (name : Bytes) : Prop :=
  Rejects P command name ∨ ValidKeyName name ∧ StaysInside name

private theorem staysInside_of_valid {name : Bytes} (h : ValidKeyName name) : StaysInside name := by
  have hlegal : LegalKeyName (some name) := fun _ he => Option.some.inj he ▸ h
  have hname : name ≠ str "default" := (validKeyName_iff.mp h).2.1
  intro env w w' path hrun
  obtain rfl : path = internalKeyPath env (some name) :=
    ((getInternalKeyPath_returns (fun _ => True) _).of_run trivial hrun).2
  refine ⟨fun he => hname (List.append_cancel_left he), fun gitDir repo loc hloc hr => ?_⟩
  have he := hloc.eq_keyLocation hlegal.isName hr
  refine ⟨fun hd => hname ?_, name, isName_of_validKeyName h, he⟩
  exact (List.cons.inj (he.symm.trans hd)).1

/-! ### The command that checks -/

private theorem init_rejects (P : Primitives) {name : Bytes} (h : ¬ ValidKeyName name) : Rejects P .init name := by
  intro env repo args hname
  obtain ⟨reason, hreason⟩ : ∃ reason, validateKeyName name = .error reason := by
    cases hv : validateKeyName name with
    | error reason => exact ⟨reason, rfl⟩
    | ok _ => exact absurd hv h
  have hthrow : validateKeyNameOrThrow name = raiseError reason := by
    rw [validateKeyNameOrThrow, hreason]
  -- nothing has been run when the arguments are refused
  have hnothing : Triple (fun w => w.trace = []) (KeyCommand.init.run P env args)
      (fun status w => status ≠ 0 ∧ w.trace = []) (fun _ w => w.trace = []) := by
    unfold KeyCommand.keyName at hname
    unfold KeyCommand.run GitCrypt.init
    dsimp only at hname ⊢
    cases hparse : parseOptions (keyNameOptions fun value _ => some value) (none : Option Bytes) args with
    | error e =>
      rw [hparse] at hname
      cases hname
    | ok parsed =>
      obtain ⟨given, rest⟩ := parsed
      rw [hparse] at hname
      obtain rfl : given = some name := hname
      dsimp only
      refine .ite (fun hnone => absurd hnone.1 (by simp)) fun _ => .ite (fun _ => ?_) fun _ => ?_
      · exact leave_triple fun w hw => ⟨by decide, hw⟩
      · rw [hthrow]
        exact .bind (R := fun _ _ => False) (.throw fun _ hw => hw) fun _ _ hfalse => hfalse.elim
  have hrun := hnothing (repo.start env) rfl
  rcases hr : KeyCommand.init.run P env args (repo.start env) with ⟨e | status, w⟩ <;> rw [hr] at hrun
  · exact ⟨by rintro ⟨⟩, by simp [show w.trace = [] from hrun]⟩
  · exact ⟨fun he => hrun.1 (Except.ok.inj he), by simp [hrun.2]⟩

/-! ### The commands that do not -/

/-- Every operation from this number on fails. -/
def failingFrom (op : Nat) : Env :=
  { freshEnv with
    fails := fun n => decide (op ≤ n)
    publicKeys := fun _ => some (str "pub:\nfpr:::::::::F:\n") }

private theorem loadKey_fails {env : Env} {w : World} (keyName : Option Bytes) (h₀ : env.fails w.ops = false)
    (h₁ : env.fails (w.ops + 1) = true) : ∃ e, loadKey env keyName none none w =
      (.error e, (w.note (.ran .gitRevParseGitDir 0)).note (.called (.read (internalKeyPath env keyName)) false)) := by
  refine ⟨.error (str "Unable to open key file - have you unlocked/initialized this repository yet?"), ?_⟩
  refine (Prog.bind_of_ok (getInternalKeyPath_run keyName h₀) _).trans ?_
  unfold readFile
  rw [Prog.bind_apply, Prog.bind_apply, syscall_fails h₁]
  rfl

/-- A command that begins to load the key when nothing works any more. -/
theorem not_rejects_of_loadKey {P : Primitives} {command : KeyCommand} {name : Bytes} {env : Env} {repo : Repo}
    {args : List Bytes} (hname : command.keyName args = some name) {w : World} {f : KeyFile → Action Nat}
    (hrun : command.run P env args (repo.start env) = (loadKey env (some name) none none >>= f) w)
    (h₀ : env.fails w.ops = false) (h₁ : env.fails (w.ops + 1) = true) : ¬ Rejects P command name := by
  intro h
  obtain ⟨e, hload⟩ := loadKey_fails (some name) h₀ h₁
  rw [Prog.bind_of_error hload] at hrun
  refine (h env repo args hname).2 (.called (.read (internalKeyPath env (some name))) false) ?_ rfl
  rw [hrun]
  simp [World.note]

/-- `-k` and a name, before arguments that are not options. -/
theorem parseOptions_keyName {σ : Type} {options : List (OptionDef σ)} (set : Bytes → σ → σ)
    (hfind : findOption options [45, 107] = some { name := str "-k", value := some set }) (vars : σ) (name : Bytes)
    {args : List Bytes} (hargs : ∀ arg, args.head? = some arg → arg.head? ≠ some 45) :
    parseOptions options vars (str "-k" :: name :: args) = .ok (set name vars, args) := by
  change parseOptions options vars ([45, 107] :: name :: args) = _
  rw [parseOptions_letter (by decide) hfind rfl rfl, parseOptions_stop _ _ hargs]

private theorem exportKey_not_rejects (P : Primitives) (name : Bytes) : ¬ Rejects P .exportKey name := by
  have hparse : parseOptions (keyNameOptions fun value _ => some value) (none : Option Bytes)
      [str "-k", name, str "key"] = .ok (some name, [str "key"]) :=
    parseOptions_keyName (fun value _ => some value) rfl none name (by rintro _ ⟨⟩; decide)
  have hrun : exportKey (failingFrom 1) [str "-k", name, str "key"] =
      (loadKey (failingFrom 1) (some name) none none >>= fun keyFile =>
        outputKeyFile (failingFrom 1) keyFile (str "key")) := by
    unfold exportKey
    rw [hparse]
    rfl
  refine @not_rejects_of_loadKey P .exportKey name (failingFrom 1) freshRepo [str "-k", name, str "key"] ?_
    (freshRepo.start (failingFrom 1)) _ (congrFun hrun _) rfl rfl
  rw [KeyCommand.keyName, hparse]
  rfl

/-- A filter that takes only the key name. -/
theorem filterStdin_loads (env : Env) (usage : Bytes) (filter : KeyFile → IStream → FilterRun) (name : Bytes) :
    parsePlumbingOptions [str "-k", name] = .ok (⟨some name, none⟩, []) ∧
      ∃ f : KeyFile → Action Nat, filterStdin env usage filter [str "-k", name] =
        (loadKey env (some name) none none >>= f) := by
  have hparse : parsePlumbingOptions [str "-k", name] = .ok (⟨some name, none⟩, []) :=
    @parseOptions_keyName PlumbingOptions plumbingOptions (fun value vars => { vars with keyName := some value })
      rfl {} name [] (by simp)
  refine ⟨hparse, fun keyFile => get >>= fun w => (filter keyFile w.cin).perform, ?_⟩
  unfold filterStdin
  rw [hparse]
  rfl

private theorem clean_not_rejects (P : Primitives) (name : Bytes) : ¬ Rejects P .clean name := by
  obtain ⟨hparse, f, hrun⟩ := filterStdin_loads (failingFrom 1)
    (str "Usage: git-crypt clean [--key-name=NAME] [--key-file=PATH]") (cleanWith P) name
  refine @not_rejects_of_loadKey P .clean name (failingFrom 1) freshRepo [str "-k", name] ?_
    (freshRepo.start (failingFrom 1)) f (congrFun hrun _) rfl rfl
  rw [KeyCommand.keyName, hparse]
  rfl

private theorem smudge_not_rejects (P : Primitives) (name : Bytes) : ¬ Rejects P .smudge name := by
  obtain ⟨hparse, f, hrun⟩ := filterStdin_loads (failingFrom 1)
    (str "Usage: git-crypt smudge [--key-name=NAME] [--key-file=PATH]") (smudgeWith P) name
  refine @not_rejects_of_loadKey P .smudge name (failingFrom 1) freshRepo [str "-k", name] ?_
    (freshRepo.start (failingFrom 1)) f (congrFun hrun _) rfl rfl
  rw [KeyCommand.keyName, hparse]
  rfl

private theorem diff_not_rejects (P : Primitives) (name : Bytes) : ¬ Rejects P .diff name := by
  have hparse : parsePlumbingOptions [str "-k", name, str "file"] = .ok (⟨some name, none⟩, [str "file"]) :=
    @parseOptions_keyName PlumbingOptions plumbingOptions (fun value vars => { vars with keyName := some value })
      rfl {} name [str "file"] (by rintro _ ⟨⟩; decide)
  have hrun : GitCrypt.diff P (failingFrom 1) [str "-k", name, str "file"] =
      (loadKey (failingFrom 1) (some name) none none >>= fun keyFile =>
        diffFile P (failingFrom 1) keyFile (str "file")) := by
    unfold GitCrypt.diff
    rw [hparse]
    rfl
  refine @not_rejects_of_loadKey P .diff name (failingFrom 1) freshRepo [str "-k", name, str "file"] ?_
    (freshRepo.start (failingFrom 1)) _ (congrFun hrun _) rfl rfl
  rw [KeyCommand.keyName, hparse]
  rfl

private theorem lookupCollaborators_failingFrom : ∃ w, w.ops = 2 ∧
    lookupCollaborators (failingFrom 3) false [str "user"] (freshRepo.start (failingFrom 3)) =
      (.ok (some [(str "F", false)]), w) := by
  have h : (lookupCollaborators (failingFrom 3) false [str "user"] (freshRepo.start (failingFrom 3))).1 =
      .ok (some [(str "F", false)]) := by decide +kernel
  have hops : (lookupCollaborators (failingFrom 3) false [str "user"] (freshRepo.start (failingFrom 3))).2.ops =
      2 := by decide +kernel
  generalize lookupCollaborators _ _ _ _ = run at h hops
  exact ⟨run.2, hops, Prod.ext h rfl⟩

private theorem addGpgUser_not_rejects (P : Primitives) (name : Bytes) : ¬ Rejects P .addGpgUser name := by
  have hparse : parseOptions addGpgUserOptions {} [str "-k", name, str "user"] =
      .ok (⟨some name, false, false⟩, [str "user"]) :=
    @parseOptions_keyName AddGpgUserOptions addGpgUserOptions (fun value vars => { vars with keyName := some value })
      rfl {} name [str "user"] (by rintro _ ⟨⟩; decide)
  obtain ⟨w, hops, hlookup⟩ := lookupCollaborators_failingFrom
  obtain ⟨f, hrun⟩ : ∃ f : KeyFile → Action Nat,
      GitCrypt.addGpgUser (failingFrom 3) [str "-k", name, str "user"] (freshRepo.start (failingFrom 3)) =
        (loadKey (failingFrom 3) (some name) none none >>= f) w := by
    unfold GitCrypt.addGpgUser
    rw [hparse]
    exact ⟨_, Prog.bind_of_ok hlookup _⟩
  refine @not_rejects_of_loadKey P .addGpgUser name (failingFrom 3) freshRepo [str "-k", name, str "user"] ?_
    w f hrun ?_ ?_
  · rw [KeyCommand.keyName, hparse]
    rfl
  · rw [hops]
    rfl
  · rw [hops]
    rfl

/-- Whatever `lock` finds where it looks for the key, it goes on to delete it. -/
theorem lock_not_rejects (P : Primitives) (name : Bytes) : ¬ Rejects P .lock name := by
  have hparse : parseOptions lockOptions {} [str "-k", name] = .ok (⟨some name, false, false⟩, []) :=
    @parseOptions_keyName LockOptions lockOptions (fun value vars => { vars with keyName := some value })
      rfl {} name [] (by simp)
  let env := failingFrom 2
  let path := internalKeyPath env (some name)
  let w₁ := (freshRepo.start env).note (.ran .gitStatus 0)
  let w₂ := (w₁.note (.ran .gitRevParseGitDir 0)).note (.called (.stat path) false)
  have hunlink : lockGivenKey env (some name) w₁ =
      (.error (.systemError "unlink" path .eio), w₂.note (.called (.unlink path) false)) := by
    have haccess : access env path (w₁.note (.ran .gitRevParseGitDir 0)) = (.ok (.error .eio), w₂) :=
      syscall_fails rfl
    have hremove : removeFile env path w₂ =
        (.error (.systemError "unlink" path .eio), w₂.note (.called (.unlink path) false)) := by
      unfold removeFile
      rw [Prog.bind_apply, syscall_fails rfl]
      rfl
    refine (Prog.bind_of_ok (getInternalKeyPath_run (some name) rfl) _).trans ?_
    refine (Prog.bind_of_ok haccess _).trans ?_
    exact Prog.bind_of_error (Prog.bind_of_error hremove _) _
  have hrun : GitCrypt.lock env [str "-k", name] (freshRepo.start env) =
      (.error (.systemError "unlink" path .eio), w₂.note (.called (.unlink path) false)) := by
    have hstatus : getGitStatus env (freshRepo.start env) = (.ok (outputStream []), w₁) := rfl
    unfold GitCrypt.lock
    rw [hparse]
    refine (Prog.bind_of_ok hstatus _).trans ?_
    exact Prog.bind_of_error hunlink _
  intro h
  refine (h env freshRepo [str "-k", name] ?_).2 (.called (.unlink path) false) ?_ rfl
  · rw [KeyCommand.keyName, hparse]
    rfl
  · rw [KeyCommand.run, hrun]
    simp [World.note]

private theorem not_rejects {command : KeyCommand} (h : command ≠ .init) (P : Primitives) (name : Bytes) :
    ¬ Rejects P command name := by
  cases command with
  | init => exact absurd rfl h
  | lock => exact lock_not_rejects P name
  | exportKey => exact exportKey_not_rejects P name
  | addGpgUser => exact addGpgUser_not_rejects P name
  | clean => exact clean_not_rejects P name
  | smudge => exact smudge_not_rejects P name
  | diff => exact diff_not_rejects P name

/-- Only `init` checks the names it is given: the other commands confine exactly the names that
are valid. -/
theorem confined_iff (P : Primitives) (command : KeyCommand) (name : Bytes) :
    Confined P command name ↔ command = .init ∨ ValidKeyName name := by
  by_cases hvalid : ValidKeyName name
  · exact iff_of_true (.inr ⟨hvalid, staysInside_of_valid hvalid⟩) (.inr hvalid)
  · by_cases hinit : command = .init
    · subst hinit
      exact iff_of_true (.inl (init_rejects P hvalid)) (.inl rfl)
    · refine iff_of_false ?_ ?_
      · rintro (h | h)
        · exact not_rejects hinit P name h
        · exact hvalid h.1
      · rintro (h | h)
        · exact hinit h
        · exact hvalid h

/-- `lock -k ../keys/default` removes the file of the default key. -/
theorem lock_leaves_keys_directory :
    (∀ P, ¬ Confined P .lock (str "../keys/default")) ∧ ¬ ValidKeyName (str "../keys/default") ∧
      (lock freshEnv [str "-k", str "../keys/default"] (initialised.start freshEnv)).1 = .ok 0 ∧
      (initialised.fs.find (keyLocation [str ".git"] none)).isSome = true ∧
      (initialised.after (.lock [str "-k", str "../keys/default"])).fs.find (keyLocation [str ".git"] none) = none := by
  have hinvalid : ¬ ValidKeyName (str "../keys/default") := by decide +kernel
  refine ⟨?_, hinvalid, by decide +kernel⟩
  rintro P (h | h)
  · exact lock_not_rejects P _ h
  · exact hinvalid h.1

end GitCrypt
