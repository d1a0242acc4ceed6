import GitCrypt.KeyAgreement

/-! A key that is exported in one clone and unlocks another: what either of them encrypts with it the
other decrypts. -/
namespace GitCrypt
open Iostream Posix FileSystem Prog
variable {P : Primitives} {env : Env} {gitDir : Location} {r : Repo} {keyName : Option Bytes}

/-! ### The clone that is unlocked -/

/-- One argument supplies one key file. -/
theorem Supplied.unique {arg bytes bytes' : Bytes} (h : Supplied env [arg] r bytes) (h' : Supplied env [arg] r bytes') :
    bytes = bytes' := by
  cases h with
  | stdin hstdin =>
    cases h' with
    | stdin => rfl
    | file harg hdash => exact absurd ((List.mem_singleton.mp harg).trans (List.mem_singleton.mp hstdin).symm) hdash
    | gpg hargs => cases hargs
  | file harg hdash hread =>
    obtain rfl := List.mem_singleton.mp harg
    cases h' with
    | stdin hstdin => exact absurd (List.mem_singleton.mp hstdin).symm hdash
    | file harg' _ hread' =>
      obtain rfl := List.mem_singleton.mp harg'
      exact Option.some.inj (hread.symm.trans hread')
    | gpg hargs => cases hargs
  | gpg hargs => cases hargs

private theorem readSymmetricKeyFiles_length (args : List Bytes) :
    Yields (readSymmetricKeyFiles env args) fun res =>
      ∀ keyFiles, res = some keyFiles → keyFiles.length = args.length := by
  induction args with
  | nil => exact .pure fun _ _ keyFiles he => by cases he; rfl
  | cons arg args ih =>
    refine (readSymmetricKeyFile_quiet arg).andThen fun res => ?_
    cases res with
    | none => exact .pure fun _ _ _ he => by cases he
    | some keyFile =>
      refine .bind ih fun res => ?_
      cases res with
      | none => exact .pure fun _ _ _ he => by cases he
      | some keyFiles =>
        refine .pure fun _ hlength keyFiles' he => ?_
        cases he
        exact congrArg (· + 1) (hlength keyFiles rfl)

/-- An `unlock` with one argument that returns 0 has read the key file that the argument supplies. -/
private theorem unlock_reads {arg bytes : Bytes} (hsupplied : Supplied env [arg] r bytes) {w : World}
    (hrun : unlock env [arg] (r.start env) = (.ok 0, w)) :
    ∃ keyFile, KeyFile.loadBytes bytes = .ok keyFile ∧ UnlockReads env r [arg] [keyFile] := by
  obtain ⟨statusOutput, w₁, hstatus, hrun⟩ := Prog.bind_ok hrun
  have hreading : Reading env r w₁ := by
    have hkeeps := @getGitStatus_reading env (r.start env)
    rw [hstatus] at hkeeps
    obtain ⟨hrepo, hcin⟩ := Prod.mk.inj hkeeps
    exact ⟨hrepo, .inl hcin⟩
  split at hrun
  · cases hrun
  · obtain ⟨loaded, w₂, hread, hrun⟩ := Prog.bind_ok hrun
    cases loaded with
    | none => cases hrun
    | some keyFiles =>
      have hfiles : readSymmetricKeyFiles env [arg] w₁ = (.ok (some keyFiles), w₂) := hread
      have hlength := (readSymmetricKeyFiles_length [arg]).of_run trivial hfiles keyFiles rfl
      have hall := (readSymmetricKeyFiles_supplied (List.Subset.refl [arg])).ok hreading hfiles keyFiles rfl
      obtain ⟨keyFile, rfl⟩ := List.length_eq_one_iff.mp hlength
      obtain ⟨bytes', hsupplied', hload⟩ := hall keyFile List.mem_cons_self
      rw [hsupplied'.unique hsupplied] at hload
      exact ⟨keyFile, hload, statusOutput, w₁, w₂, hstatus, hread⟩

private theorem installedKeyFile_of_find (hloc : Located env gitDir r) (hn : LegalKeyName keyName) {keyFile : KeyFile}
    (hs : keyFile.Storable) (hfile : r.fs.find (keyLocation gitDir keyName) = some (.file keyFile.store)) :
    installedKeyFile env keyName r.fs = some keyFile := by
  have hstat : r.fs.stat env.cwd (internalKeyPath env keyName) = .ok (.file keyFile.store) :=
    FileSystem.stat_ok.mpr ⟨_, hloc.resolve_keyLocation hn.isName (by rw [hfile]; rfl), hfile⟩
  have hread : readable env (internalKeyPath env keyName) r.fs = some keyFile.store := by
    unfold readable
    rw [hstat]
  rw [installedKeyFile, hread, Option.bind_some, KeyFile.loadBytes_store hs]
  rfl

/-! ### From one clone to another -/

/-- The key of a name that one process exports unlocks the clone in which another one runs. -/
structure Transfer (P : Primitives) (keyName : Option Bytes) (gitDir : Location) (e u : Process)
    (s t : Repo × GitState) : Prop where
  exports : ∃ args outFileName, commandLine e.args = some (str "export-key", args) ∧
    parseOptions (keyNameOptions fun value _ => some value) (none : Option Bytes) args = .ok (keyName, [outFileName])
  unlocks : ∃ arg, commandLine u.args = some (str "unlock", [arg])
  located : Located u.invoked.env gitDir t.1
  handed : ∃ bytes ∈ e.handsOn (e.run P s).1 (e.run P s).2.1, bytes ∈ u.takesIn t.1
  unlocked : (u.run P t).1 = .ok 0

section
variable {e u : Process} {s t : Repo × GitState}

/-- What `export-key` has handed on is the key file in the place of the name. -/
theorem Process.handsOn_export {args : List Bytes} {outFileName bytes : Bytes}
    (hc : commandLine e.args = some (str "export-key", args))
    (hparse : parseOptions (keyNameOptions fun value _ => some value) (none : Option Bytes) args =
      .ok (keyName, [outFileName]))
    (hbytes : bytes ∈ e.handsOn (e.run P s).1 (e.run P s).2.1) :
    LegalKeyName keyName ∧ ∃ keyFile, installedKeyFile e.invoked.env keyName s.1.fs = some keyFile ∧
      bytes = keyFile.store := by
  unfold Process.handsOn at hbytes
  rw [hc] at hbytes
  obtain ⟨hzero, hexported⟩ := hbytes
  rw [exported, hparse] at hexported
  have hrun := Process.run_of_zero (m := exportKey e.invoked.env args) hc rfl hzero
  obtain ⟨outFileName', keyFile, hrest, hinstalled, hwritten⟩ :=
    (exportKey_writes (r := s.1) hparse).ok ⟨rfl, rfl⟩ hrun rfl
  cases hrest
  exact ⟨hexported.1, keyFile, hinstalled, hexported.2.unique hwritten⟩

/-- What `unlock` has taken in lies in the place of its name. -/
theorem Process.takesIn_unlock {arg bytes : Bytes} (hc : commandLine u.args = some (str "unlock", [arg]))
    (hloc : Located u.invoked.env gitDir t.1) (hbytes : bytes ∈ u.takesIn t.1) (hzero : (u.run P t).1 = .ok 0) :
    ∃ keyFile, KeyFile.loadBytes bytes = .ok keyFile ∧
      installedKeyFile u.invoked.env keyFile.getKeyName (u.run P t).2.1.fs = some keyFile := by
  obtain ⟨args, hargs, hsupplied⟩ := hbytes
  rw [hc] at hargs
  obtain rfl : [arg] = args := Option.some.inj hargs
  have hrun := Process.run_of_zero (m := unlock u.invoked.env [arg]) hc rfl hzero
  obtain ⟨keyFile, hload, hreads⟩ := unlock_reads hsupplied hrun
  have hinstalled := unlock_installs hloc hreads hrun
  have hs := KeyFile.storable_of_loadBytes hload
  have hn := KeyFile.legalKeyName_of_storable hs
  have hlast : lastOfName [keyFile] keyFile.getKeyName = some keyFile := by rw [lastOfName_cons, if_pos rfl]; rfl
  exact ⟨keyFile, hload, installedKeyFile_of_find hinstalled.located hn hs (hinstalled.given _ _ hn hlast).file⟩

theorem Transfer.same (h : Transfer P keyName gitDir e u s t)
    (hname : ∀ keyFile, installedKeyFile e.invoked.env keyName s.1.fs = some keyFile → keyFile.getKeyName = keyName) :
    ∃ keyFile, installedKeyFile e.invoked.env keyName s.1.fs = some keyFile ∧
      installedKeyFile u.invoked.env keyName (u.run P t).2.1.fs = some keyFile := by
  obtain ⟨args, outFileName, hexport, hparse⟩ := h.exports
  obtain ⟨arg, hunlock⟩ := h.unlocks
  obtain ⟨bytes, hout, hin⟩ := h.handed
  obtain ⟨hn, keyFile, hinstalled, rfl⟩ := Process.handsOn_export hexport hparse hout
  obtain ⟨keyFile', hload, hunlocked⟩ := Process.takesIn_unlock hunlock h.located hin h.unlocked
  obtain ⟨bytes, -, hloaded⟩ := loadBytes_of_installed hinstalled
  rw [KeyFile.loadBytes_store (KeyFile.storable_of_loadBytes hloaded)] at hload
  cases hload
  rw [hname _ hinstalled] at hunlocked
  exact ⟨_, hinstalled, hunlocked⟩

/-- Whichever of the two clones has encrypted a file with the key, in the other it is decrypted, where
nothing fails. -/
theorem decrypts_of_transfer (h : Transfer P keyName gitDir e u s t)
    (hkey : ∀ keyFile, installedKeyFile e.invoked.env keyName s.1.fs = some keyFile →
      keyFile.getKeyName = keyName ∧ keyFile.getLatest = keyFile.get decryptKeyVersion)
    {c q : Process} {s' t' : Repo × GitState}
    (hc : installedKeyFile c.invoked.env keyName s'.1.fs = installedKeyFile e.invoked.env keyName s.1.fs ∨
      installedKeyFile c.invoked.env keyName s'.1.fs = installedKeyFile u.invoked.env keyName (u.run P t).2.1.fs)
    (hq : installedKeyFile q.invoked.env keyName t'.1.fs = installedKeyFile e.invoked.env keyName s.1.fs ∨
      installedKeyFile q.invoked.env keyName t'.1.fs = installedKeyFile u.invoked.env keyName (u.run P t).2.1.fs)
    (hclean : c.Filters (str "clean") keyName []) (hzero : (c.run P s').1 = .ok 0)
    (hdecrypts : q.Decrypts t'.1 keyName (c.run P s').2.1.cout.written) (hreliable : Reliable q.invoked.env) :
    (q.run P t').1 = .ok 0 ∧ (q.run P t').2.1.cout.written = c.invoked.env.stdin := by
  obtain ⟨keyFile, hexported, hunlocked⟩ := h.same fun keyFile hinstalled => (hkey keyFile hinstalled).1
  rw [hexported, hunlocked, or_self] at hc hq
  obtain ⟨keyFile', key, hinstalled, hlatest, hlt, hblob⟩ := Process.clean_runs hclean hzero
  obtain rfl : keyFile = keyFile' := Option.some.inj (hc.symm.trans hinstalled)
  rw [hblob] at hdecrypts
  have hget : keyFile.get decryptKeyVersion = some key := (hkey keyFile hexported).2 ▸ hlatest
  exact Process.decrypts_installed hdecrypts hlt hq hget hreliable

end

/-- The state that a process leaves. -/
def Process.after (P : Primitives) (p : Process) (s : Repo × GitState) : Repo × GitState :=
  ((p.run P s).2.1.toRepo, (p.run P s).2.2)

theorem Process.after_fs (P : Primitives) (p : Process) (s : Repo × GitState) :
    (p.after P s).1.fs = (p.run P s).2.1.fs := rfl

def processWith (stdin : Bytes) (args : List Bytes) : Process where
  invoked := { keygenProcess.invoked with env := { freshEnv with stdin } }
  argv0 := str "git-crypt"
  args

theorem processWith_stdin (stdin : Bytes) (args : List Bytes) : (processWith stdin args).invoked.env.stdin = stdin := rfl

theorem installedKeyFile_processWith (stdin stdin' : Bytes) (args args' : List Bytes) (fs : FileSystem) :
    installedKeyFile (processWith stdin args).invoked.env keyName fs =
      installedKeyFile (processWith stdin' args').invoked.env keyName fs := rfl

/-- A clone in which a key was made. -/
def initialisedClone : Repo × GitState := (processWith [] [str "init"]).after plainPrimitives (freshRepo, emptyGit)

def exporting : Process := processWith [] [str "export-key", str "-"]

def exportedKey : Bytes := (exporting.run plainPrimitives initialisedClone).2.1.cout.written

def unlocking : Process := processWith exportedKey [str "unlock", str "-"]

/-- Another one that was unlocked with it. -/
def unlockedClone : Repo × GitState := unlocking.after plainPrimitives (freshRepo, emptyGit)

def cleaning : Process := processWith (str "hello") [str "clean"]

def cleaned : Bytes := (cleaning.run plainPrimitives initialisedClone).2.1.cout.written

def smudging : Process := processWith cleaned [str "smudge"]

theorem cleaning_filters : cleaning.Filters (str "clean") none [] :=
  ⟨[], by decide +kernel, by decide +kernel⟩

theorem smudging_filters : smudging.Filters (str "smudge") none [] :=
  ⟨[], by decide +kernel, by decide +kernel⟩

theorem exportedKey_handsOn :
    exportedKey ∈ exporting.handsOn (exporting.run plainPrimitives initialisedClone).1
      (exporting.run plainPrimitives initialisedClone).2.1 := by
  have hc : commandLine exporting.args = some (str "export-key", [str "-"]) := by decide +kernel
  have hparse : parseOptions (keyNameOptions fun value _ => some value) (none : Option Bytes) [str "-"] =
      .ok (none, [str "-"]) := by decide +kernel
  unfold Process.handsOn
  rw [hc]
  refine ⟨by decide +kernel, ?_⟩
  unfold exported
  rw [hparse]
  exact ⟨nofun, rfl⟩

private theorem exportedKey_takesIn : exportedKey ∈ unlocking.takesIn freshRepo := by
  have hargs : ((commandLine unlocking.args).bind fun line => unlockArgs line.1 line.2) = some [str "-"] := by
    decide +kernel
  have hstdin : unlocking.invoked.env.stdin = exportedKey := processWith_stdin _ _
  rw [← hstdin]
  exact ⟨[str "-"], hargs, .stdin List.mem_cons_self⟩

private theorem transfer_unlockedClone :
    Transfer plainPrimitives none [str ".git"] exporting unlocking initialisedClone (freshRepo, emptyGit) where
  exports := ⟨[str "-"], str "-", by decide +kernel, by decide +kernel⟩
  unlocks := ⟨str "-", by decide +kernel⟩
  located := by unfold Located; decide +kernel
  handed := ⟨exportedKey, exportedKey_handsOn, exportedKey_takesIn⟩
  unlocked := by decide +kernel

theorem decrypts_of_transfer_hello : (smudging.run plainPrimitives unlockedClone).1 = .ok 0 ∧
    (smudging.run plainPrimitives unlockedClone).2.1.cout.written = str "hello" := by
  have hkey (keyFile : KeyFile)
      (hinstalled : installedKeyFile exporting.invoked.env none initialisedClone.1.fs = some keyFile) :
      keyFile.getKeyName = none ∧ keyFile.getLatest = keyFile.get decryptKeyVersion := by
    have hkeys : (installedKeyFile exporting.invoked.env none initialisedClone.1.fs).all fun keyFile =>
        decide (keyFile.getKeyName = none ∧ keyFile.getLatest = keyFile.get decryptKeyVersion) := by decide +kernel
    rw [hinstalled] at hkeys
    exact of_decide_eq_true hkeys
  have hcleaning : installedKeyFile cleaning.invoked.env none initialisedClone.1.fs =
      installedKeyFile exporting.invoked.env none initialisedClone.1.fs := installedKeyFile_processWith _ _ _ _ _
  have hsmudging : installedKeyFile smudging.invoked.env none unlockedClone.1.fs =
      installedKeyFile unlocking.invoked.env none (unlocking.run plainPrimitives (freshRepo, emptyGit)).2.1.fs := by
    rw [← unlocking.after_fs plainPrimitives (freshRepo, emptyGit)]
    exact installedKeyFile_processWith _ _ _ _ _
  have hzero : (cleaning.run plainPrimitives initialisedClone).1 = .ok 0 := by decide +kernel
  have hdecrypts : smudging.Decrypts unlockedClone.1 none cleaned := .smudge smudging_filters (processWith_stdin _ _)
  exact decrypts_of_transfer transfer_unlockedClone hkey (c := cleaning) (q := smudging) (.inl hcleaning)
    (.inr hsmudging) cleaning_filters hzero hdecrypts fun _ => rfl

end GitCrypt
