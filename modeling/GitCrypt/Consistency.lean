import Mathlib.Logic.Relation
import GitCrypt.KeyRoundTrip
import GitCrypt.Effects

/-! Keys and filters go together: over runs of `init`, `unlock` and `lock`, a key file is
installed exactly where the filters of its name are configured. -/
namespace GitCrypt
open Iostream Posix
variable {env : Env}

def keyLocation (gitDir : Location) (keyName : Option Bytes) : Location :=
  keyName.getD (str "default") :: str "keys" :: str "git-crypt" :: gitDir

/-- The internal key file of a name is there. -/
def HasKeyFile (gitDir : Location) (repo : Repo) (keyName : Option Bytes) : Prop :=
  ∃ bytes, repo.fs.find (keyLocation gitDir keyName) = some (.file bytes)

/-- The configuration has the three filter variables of a name and its diff variable. -/
def FiltersConfigured (repo : Repo) (keyName : Option Bytes) : Prop :=
  ∀ v ∈ filterVariables keyName, (getConfig repo.config v).isSome = true

def Consistent (gitDir : Location) (repo : Repo) : Prop :=
  ∀ keyName, LegalKeyName keyName → (HasKeyFile gitDir repo keyName ↔ FiltersConfigured repo keyName)

/-- What `git rev-parse --git-dir` prints leads to the git directory. -/
def Located (env : Env) (gitDir : Location) (repo : Repo) : Prop :=
  repo.fs.resolve env.cwd (gitDirPath env) = .ok gitDir

/-- If the path of a key leads to the installed key file of a legal name, it is its own. -/
def LeadsToOwnKey (env : Env) (gitDir : Location) (repo : Repo) (keyName : Option Bytes) : Prop :=
  ∀ other, LegalKeyName other → HasKeyFile gitDir repo other →
    repo.fs.resolve env.cwd (internalKeyPath env keyName) = .ok (keyLocation gitDir other) →
    other = keyName

/-- The components of the path of a key file below the git directory. -/
private theorem internalKeyPath_eq (keyName : Option Bytes) : internalKeyPath env keyName =
    FileSystem.below (gitDirPath env) [str "git-crypt", str "keys", keyName.getD (str "default")] := by
  simp only [internalKeyPath, FileSystem.below, List.flatMap_cons, List.flatMap_nil, List.append_nil,
    List.append_assoc]
  rfl

private theorem keyPath_names {keyName : Option Bytes} (hn : IsName (keyName.getD (str "default"))) :
    ∀ c ∈ [str "git-crypt", str "keys", keyName.getD (str "default")], IsName c := by
  simp only [List.mem_cons, List.not_mem_nil, or_false]
  rintro c (rfl | rfl | rfl)
  · exact by decide
  · exact by decide
  · exact hn

section
variable {gitDir loc : Location} {repo repo' : Repo} {keyName : Option Bytes}

theorem Located.eq_keyLocation (h : Located env gitDir repo)
    (hn : IsName (keyName.getD (str "default")))
    (hr : repo.fs.resolve env.cwd (internalKeyPath env keyName) = .ok loc) :
    loc = keyLocation gitDir keyName := by
  rw [internalKeyPath_eq] at hr
  exact FileSystem.eq_of_resolve_below h (keyPath_names hn) hr

theorem Located.resolve_keyLocation (h : Located env gitDir repo)
    (hn : IsName (keyName.getD (str "default")))
    (hf : (repo.fs.find (keyLocation gitDir keyName)).isSome = true) :
    repo.fs.resolve env.cwd (internalKeyPath env keyName) = .ok (keyLocation gitDir keyName) := by
  rw [internalKeyPath_eq]
  exact FileSystem.resolve_below_of_find h (keyPath_names hn) hf

theorem Located.mono (h : Located env gitDir repo) (hd : repo.fs.DirsIn repo'.fs) :
    Located env gitDir repo' :=
  FileSystem.resolve_of_dirsIn hd h

theorem Located.leadsOnlyTo (h : Located env gitDir repo)
    (hn : IsName (keyName.getD (str "default"))) :
    LeadsOnlyTo env repo.fs (internalKeyPath env keyName) (keyLocation gitDir keyName) := by
  intro fs loc hd hr
  have hl : Located env gitDir ⟨fs, repo.config⟩ := h.mono hd
  exact hl.eq_keyLocation hn hr

theorem lockedKeyName_getD (dirent : Bytes) : (lockedKeyName dirent).getD (str "default") = dirent := by
  unfold lockedKeyName
  split_ifs with hd
  · exact hd.symm
  · rfl

/-- A name in the directory of the keys leads to its own key. -/
theorem Located.leadsToOwnKey (h : Located env gitDir repo) {dirent : Bytes} (hn : IsName dirent) :
    LeadsToOwnKey env gitDir repo (lockedKeyName dirent) := by
  intro other ho _ hr
  have hloc := h.eq_keyLocation (by rwa [lockedKeyName_getD]) hr
  rw [keyLocation, keyLocation, List.cons.injEq, lockedKeyName_getD] at hloc
  rw [← hloc.1]
  cases other with
  | none => rfl
  | some name => exact (if_neg (validKeyName_iff.mp (ho name rfl)).2.1).symm

end

/-! ### The keys `unlock` installs -/

/-- What a program returns has a property, wherever it starts. -/
abbrev Yields {α : Type} (m : Action α) (Q : α → Prop) : Prop :=
  Returns (fun _ => True) m fun a _ => Q a

theorem Yields.keeping {α : Type} {m : Action α} {Q : α → Prop} (h : Yields m Q) (hro : Quiet m)
    (P : Repo → Prop) : Returns P m fun a r => P r ∧ Q a :=
  ((hro.returns P).and h).pre fun _ hr => ⟨hr, trivial⟩

theorem loaded_yields (input : IStream) :
    Yields (loaded (KeyFile.empty.load input)) fun keyFile => keyFile.Storable := by
  unfold loaded
  split
  · rename_i keyFile rest hload
    exact .pure fun _ _ => KeyFile.storable_of_loadBytes (KeyFile.loadBytes_of_load hload)
  · exact .raise _
  · exact .raise _

theorem readSymmetricKeyFile_yields (symmetricKeyFile : Bytes) :
    Yields (readSymmetricKeyFile env symmetricKeyFile) fun loaded =>
      ∀ keyFile, loaded = some keyFile → keyFile.Storable := by
  have hnone (lines : List Bytes) : Yields (do logLines lines; return (none : Option KeyFile)) fun loaded =>
      ∀ keyFile, loaded = some keyFile → keyFile.Storable :=
    (logLines_quiet lines).andThen fun _ => .pure fun _ _ => by simp
  have hload (input : IStream) : Yields (do return some (← loaded (KeyFile.empty.load input))) fun loaded =>
      ∀ keyFile, loaded = some keyFile → keyFile.Storable :=
    .bind (loaded_yields input) fun keyFile => .pure fun _ h => by simpa using h
  refine .tryCatch (.ite (fun _ => ?_) fun _ => ?_) fun e => ?_
  · refine .bind (ReadsOnly.returns (m := get) .get _) fun w => ?_
    dsimp only
    split
    · exact .bind (ReadsOnly.returns (fun _ => rfl) _) fun _ => hload _
    · exact hload _
  · refine (readFile_quiet _).andThen fun res => ?_
    split
    · exact hnone _
    · exact hload _
  · split
    · exact hnone _
    · exact hnone _
    · exact .raise _

theorem readSymmetricKeyFiles_yields (args : List Bytes) :
    Yields (readSymmetricKeyFiles env args) fun loaded =>
      ∀ keyFiles, loaded = some keyFiles → ∀ keyFile ∈ keyFiles, keyFile.Storable := by
  induction args with
  | nil => exact .pure fun _ _ => by simp
  | cons symmetricKeyFile args ih =>
    refine .bind (readSymmetricKeyFile_yields symmetricKeyFile) fun loaded => ?_
    split
    · exact .pure fun _ _ => by simp
    · rename_i keyFile
      -- what is known of the first file holds in every state
      refine .of_start fun _ hkey => .bind (ih.start trivial) fun rest => ?_
      split
      · exact .pure fun _ _ => by simp
      · rename_i keyFiles
        refine .pure fun _ hrest keyFiles' he => ?_
        cases he
        exact List.forall_mem_cons.mpr ⟨hkey keyFile rfl, hrest keyFiles rfl⟩

theorem decryptRepoKeyWith_yields (keyFile : KeyFile) {keyName : Option Bytes} (h : LegalKeyName keyName)
    (keyVersion : UInt32) (keysPath : Bytes) (gpgError : Option Exception) (secretKeys : List Bytes) :
    Yields (decryptRepoKeyWith env keyFile keyName keyVersion keysPath gpgError secretKeys)
      fun decrypted => ∀ keyFile ∈ decrypted, keyFile.Storable := by
  induction secretKeys generalizing gpgError with
  | nil =>
    unfold decryptRepoKeyWith
    split
    · exact .raise _
    · exact .pure fun _ _ => by simp
  | cons seckey secretKeys ih =>
    refine (access_quiet _).andThen fun res => ?_
    split
    · exact ih _
    · refine (tryGpgDecrypt_quiet _).andThen fun res => ?_
      split
      · exact ih _
      · refine .bind (R := fun keyFile _ => keyFile.Storable)
          ((loaded_quiet _).andThen fun thisVersionKeyFile => ?_) fun keyFile => ?_
        · split
          · exact .raise _
          · refine .ite (fun _ => .bind (R := fun _ _ => True) (.raise _) fun _ => ?_) fun _ => ?_
            all_goals
              exact .pure fun _ _ => KeyFile.storable_setKeyName_add _ h _
        · exact .pure fun _ hkey => by simpa using hkey

theorem decryptRepoKeysOf_yields (keyVersion : UInt32) (secretKeys : List Bytes) (keysPath : Bytes)
    (dirents : List Bytes) :
    Yields (decryptRepoKeysOf env keyVersion secretKeys keysPath dirents) fun keyFiles =>
      ∀ keyFile ∈ keyFiles, keyFile.Storable := by
  induction dirents with
  | nil => exact .pure fun _ _ => by simp
  | cons dirent dirents ih =>
    unfold decryptRepoKeysOf
    split
    · exact ih
    · rename_i keyName hname
      refine .bind (decryptRepoKeyWith_yields _ (legalKeyName_of_dirent hname) _ _ _ _) fun decrypted => ?_
      refine .of_start fun _ hkey => .bind (ih.start trivial) fun rest => ?_
      refine .pure fun _ hrest keyFile hmem => ?_
      rcases List.mem_append.mp hmem with hmem | hmem
      · exact hkey keyFile (by simpa using hmem)
      · exact hrest keyFile hmem

theorem decryptRepoKeys_yields (keyVersion : UInt32) (secretKeys : List Bytes) (keysPath : Bytes) :
    Yields (decryptRepoKeys env keyVersion secretKeys keysPath) fun keyFiles =>
      ∀ keyFile ∈ keyFiles, keyFile.Storable := by
  refine (access_quiet _).andThen fun res => ?_
  split
  · exact .pure fun _ _ => by simp
  · exact (getDirectoryContents_quiet _).andThen fun _ => decryptRepoKeysOf_yields _ _ _ _

theorem unlockKeyFiles_yields (args : List Bytes) :
    Yields (unlockKeyFiles env args) fun loaded =>
      ∀ keyFiles, loaded = some keyFiles → ∀ keyFile ∈ keyFiles, keyFile.Storable := by
  refine .ite (fun _ => readSymmetricKeyFiles_yields args) fun _ => ?_
  refine getRepoKeysPath_quiet.andThen fun _ =>
    gpgListSecretKeys_quiet.andThen fun _ => .bind (decryptRepoKeys_yields _ _ _) fun keyFiles => ?_
  split
  · exact (logLines_quiet _).andThen fun _ => .pure fun _ _ => by simp
  · exact .pure fun _ hkeys keyFiles' he => by cases he; exact hkeys

/-! ### One command -/

section
variable {gitDir : Location}

/-- The key file of a name is there, and the other names are consistent. -/
def Installing (env : Env) (gitDir : Location) (keyName : Option Bytes) (repo : Repo) : Prop :=
  Located env gitDir repo ∧ HasKeyFile gitDir repo keyName ∧
    ∀ other, LegalKeyName other → other ≠ keyName → (HasKeyFile gitDir repo other ↔ FiltersConfigured repo other)

/-- The key file of a name is gone, and the other names are consistent. -/
def Removing (env : Env) (gitDir : Location) (keyName : Option Bytes) (repo : Repo) : Prop :=
  Located env gitDir repo ∧ (LegalKeyName keyName → ¬ HasKeyFile gitDir repo keyName) ∧
    ∀ other, LegalKeyName other → other ≠ keyName → (HasKeyFile gitDir repo other ↔ FiltersConfigured repo other)

/-- The state of a run inside a command. -/
def Sound (env : Env) (gitDir : Location) (repo : Repo) : Prop :=
  Located env gitDir repo ∧ Consistent gitDir repo

theorem TreeFrom.synced {r₀ r : Repo} {S : Location → Prop} (h : TreeFrom r₀ S r) {other : Option Bytes}
    (hS : ¬ S (keyLocation gitDir other)) (h₀ : HasKeyFile gitDir r₀ other ↔ FiltersConfigured r₀ other) :
    HasKeyFile gitDir r other ↔ FiltersConfigured r other := by
  unfold HasKeyFile FiltersConfigured at *
  rw [h.2, ← h₀]
  exact exists_congr fun bytes => h.1.files _ hS bytes

theorem ConfigFrom.synced {r₀ r : Repo} {keyName other : Option Bytes} (h : ConfigFrom r₀ keyName r)
    (hne : other ≠ keyName) (h₀ : HasKeyFile gitDir r₀ other ↔ FiltersConfigured r₀ other) :
    HasKeyFile gitDir r other ↔ FiltersConfigured r other := by
  unfold HasKeyFile FiltersConfigured at *
  rw [h.1, h₀]
  refine forall₂_congr fun v hv => ?_
  rw [h.2 v (filterSections_disjoint hne (configSection_mem hv))]

theorem installKeyFile_sound {keyName : Option Bytes} (hn : LegalKeyName keyName) (keyFile : KeyFile) :
    Returns (Sound env gitDir) (installKeyFile env keyFile (internalKeyPath env keyName))
      fun ok r => ok = true → Installing env gitDir keyName r := by
  refine .of_start fun r₀ ⟨hloc, hcons⟩ => ?_
  have hp := hloc.leadsOnlyTo hn.isName
  refine .bind (R := fun _ => TreeFrom r₀ (· = keyLocation gitDir keyName))
    ((mkdirParent_treeFrom r₀ _ _).start (.refl r₀ _)) fun _ => ?_
  refine .bind (storeToFile_returns hp keyFile) fun ok => .ite (fun hok => .pure ?_) fun _ => ?_
  · rintro r ⟨ht, hf⟩ -
    refine ⟨hloc.mono ht.1.dirs, hf hok, fun other ho hne => ht.synced ?_ (hcons other ho)⟩
    exact fun he => hne (ho.eq_of_getD hn (List.cons.inj he).1)
  · exact (logLines_quiet _).andThen fun _ => .pure fun _ _ => by simp

theorem configureGitFilters_sound (keyName : Option Bytes) :
    Returns (Installing env gitDir keyName) (configureGitFilters env keyName) fun _ => Sound env gitDir := by
  refine .of_start fun r₀ ⟨hloc, hfile, hothers⟩ => ?_
  refine (configureGitFilters_returns r₀ keyName).post fun _ r ⟨hc, hset⟩ => ?_
  refine ⟨by rw [Located, hc.1]; exact hloc, fun other ho => ?_⟩
  by_cases he : other = keyName
  · subst he
    refine iff_of_true (by rw [HasKeyFile, hc.1]; exact hfile) fun v hv => ?_
    rw [← map_filterSettings env] at hv
    obtain ⟨p, hp, rfl⟩ := List.mem_map.mp hv
    rw [hset p hp]
    rfl
  · exact hc.synced he (hothers other ho he)

theorem removeFile_sound (keyName : Option Bytes) :
    Returns (fun r => Sound env gitDir r ∧ LeadsToOwnKey env gitDir r keyName)
      (removeFile env (internalKeyPath env keyName)) fun _ => Removing env gitDir keyName := by
  refine .of_start fun r₀ ⟨⟨hloc, hcons⟩, hown⟩ => ?_
  refine (removeFile_returns r₀ _).post fun _ r ⟨ht, hgone⟩ => ?_
  refine ⟨hloc.mono ht.1.dirs, ?_, fun other ho hne => ?_⟩
  · rintro hn ⟨bytes, hf⟩
    by_cases hr : r₀.fs.resolve env.cwd (internalKeyPath env keyName) = .ok (keyLocation gitDir keyName)
    · rw [hgone _ hr] at hf
      cases hf
    · -- the file was there before, so the path led to it
      have hf₀ := (ht.1.files _ hr bytes).mp hf
      exact hr (hloc.resolve_keyLocation hn.isName (by rw [hf₀]; rfl))
  · by_cases hr : r₀.fs.resolve env.cwd (internalKeyPath env keyName) = .ok (keyLocation gitDir other)
    · -- there was no such file, and there is none now
      have h₀ : ¬ HasKeyFile gitDir r₀ other := fun hf => hne (hown other ho hf hr)
      refine iff_of_false (fun ⟨bytes, hf⟩ => ?_) fun hset => h₀ ((hcons other ho).mpr ?_)
      · rw [hgone _ hr] at hf
        cases hf
      · rwa [FiltersConfigured, ht.2] at hset
    · exact ht.synced hr (hcons other ho)

theorem deconfigureGitFilters_sound (keyName : Option Bytes) :
    Returns (Removing env gitDir keyName) (deconfigureGitFilters env keyName) fun _ => Sound env gitDir := by
  refine .of_start fun r₀ ⟨hloc, hfile, hothers⟩ => ?_
  refine (deconfigureGitFilters_returns r₀ keyName).post fun _ r ⟨hc, hnone⟩ => ?_
  refine ⟨by rw [Located, hc.1]; exact hloc, fun other ho => ?_⟩
  by_cases he : other = keyName
  · subst he
    refine iff_of_false (by rw [HasKeyFile, hc.1]; exact hfile ho) fun hset => ?_
    have hs := hset (str "filter." ++ attributeName other ++ str ".smudge") (by simp [filterVariables])
    rw [hnone _ (by simp [filterVariables])] at hs
    cases hs
  · exact hc.synced he (hothers other ho he)

theorem installKeyFiles_sound {keyFiles : List KeyFile}
    (h : ∀ keyFile ∈ keyFiles, LegalKeyName keyFile.getKeyName) :
    Returns (Sound env gitDir) (installKeyFiles env keyFiles) fun files r =>
      files.isSome = true → Sound env gitDir r := by
  induction keyFiles with
  | nil => exact .pure fun _ hr _ => hr
  | cons keyFile keyFiles ih =>
    rw [List.forall_mem_cons] at h
    refine .bind (getInternalKeyPath_returns _ _) fun path => .of_start fun r₀ ⟨hr, hpath⟩ => ?_
    subst hpath
    refine .bind ((installKeyFile_sound h.1 keyFile).start hr) fun ok =>
      .ite (fun _ => .pure fun _ _ => by simp) fun hok => ?_
    refine .bind ((configureGitFilters_sound _).pre fun r hi => hi (by simpa using hok))
      fun _ => (getEncryptedFiles_quiet _).andThen fun _ => .bind (ih h.2) fun files => ?_
    split
    · exact .pure fun _ _ => by simp
    · exact .pure fun _ hr _ => hr rfl

theorem unlock_sound (args : List Bytes) :
    Returns (Sound env gitDir) (unlock env args) fun status r => status = 0 → Sound env gitDir r := by
  refine getGitStatus_quiet.andThen fun _ => .ite (fun _ => ?_) fun _ => ?_
  · exact (logLines_quiet _).andThen fun _ => .pure fun _ _ => by simp
  · refine .bind ((unlockKeyFiles_yields args).keeping (unlockKeyFiles_quiet args) _) fun keyFiles => ?_
    split
    · exact .pure fun _ _ => by simp
    · rename_i keyFiles
      refine .of_start fun r₀ ⟨hr, hnames⟩ => ?_
      have hlegal := fun keyFile h => KeyFile.legalKeyName_of_storable (hnames keyFiles rfl keyFile h)
      refine .bind ((installKeyFiles_sound hlegal).start hr) fun files => ?_
      split
      · exact .pure fun _ _ => by simp
      · exact ((checkOutFiles_readsOnly _ _).returns _).post fun _ r hr _ => hr rfl

theorem initKey_sound {keyName : Option Bytes} (hn : LegalKeyName keyName) :
    Returns (Sound env gitDir) (initKey env keyName) fun status r => status = 0 → Sound env gitDir r := by
  refine .bind (getInternalKeyPath_returns _ _) fun path => .of_start fun r₀ ⟨hr, hpath⟩ => ?_
  subst hpath
  refine (access_quiet _).andThen fun res => ?_
  split
  · exact (logLines_quiet _).andThen fun _ => .pure fun _ _ => by simp
  · refine (logLines_quiet _).andThen fun _ => (generateKey_quiet _).andThen fun keyFile => ?_
    refine .bind ((installKeyFile_sound hn keyFile).start hr) fun ok =>
      .ite (fun _ => .pure fun _ _ => by simp) fun hok => ?_
    exact .bind ((configureGitFilters_sound _).pre fun r hi => hi (by simpa using hok))
      fun _ => .pure fun _ hr _ => hr

theorem validateKeyNameOrThrow_yields (name : Bytes) :
    Yields (validateKeyNameOrThrow name) fun _ => LegalKeyName (some name) := by
  unfold validateKeyNameOrThrow
  split
  · rename_i hv
    exact .pure fun _ _ name' he => by cases he; exact hv
  · exact .raise _

theorem init_sound (args : List Bytes) :
    Returns (Sound env gitDir) (init env args) fun status r => status = 0 → Sound env gitDir r := by
  unfold init
  split
  · exact .raise _
  · rename_i keyName rest hparse
    refine .ite (fun _ => (logLines_quiet _).andThen fun _ => unlock_sound args) fun _ => ?_
    refine .ite (fun _ => (logLines_quiet _).andThen fun _ => .pure fun _ _ => by simp) fun _ => ?_
    cases keyName with
    | none => exact initKey_sound fun name hname => by cases hname
    | some name =>
      refine .bind ((validateKeyNameOrThrow_yields name).keeping (validateKeyNameOrThrow_quiet name) _)
        fun _ => .of_start fun r₀ ⟨hr, hn⟩ => ?_
      exact (initKey_sound hn).start hr

theorem lockKey_sound (keyName : Option Bytes) :
    Returns (fun r => Sound env gitDir r ∧ LeadsToOwnKey env gitDir r keyName)
      (lockKey env keyName (internalKeyPath env keyName)) fun _ => Sound env gitDir :=
  .bind (removeFile_sound keyName) fun _ => .bind (deconfigureGitFilters_sound keyName) fun _ =>
    (getEncryptedFiles_quiet _).returns _

theorem lockKeys_sound {dirents : List Bytes} (h : ∀ dirent ∈ dirents, IsName dirent) :
    Returns (Sound env gitDir) (lockKeys env dirents) fun _ => Sound env gitDir := by
  induction dirents with
  | nil => exact .pure fun _ => id
  | cons dirent dirents ih =>
    rw [List.forall_mem_cons] at h
    refine .bind (getInternalKeyPath_returns _ _) fun path => .of_start fun r₀ ⟨hr, hpath⟩ => ?_
    subst hpath
    refine .bind ((lockKey_sound _).start ⟨hr, hr.1.leadsToOwnKey h.1⟩) fun _ =>
      .bind (ih h.2) fun _ => .pure fun _ => id

theorem lockGivenKey_sound (keyName : Option Bytes) :
    Returns (fun r => Sound env gitDir r ∧ LeadsToOwnKey env gitDir r keyName) (lockGivenKey env keyName)
      fun _ => Sound env gitDir := by
  refine .bind (getInternalKeyPath_returns _ _) fun path => .of_start fun r₀ ⟨hr, hpath⟩ => ?_
  subst hpath
  refine (access_quiet _).andThen fun res => ?_
  split
  · exact (logLines_quiet _).andThen fun _ => .pure fun r he => he ▸ hr.1
  · exact .bind ((lockKey_sound _).start hr) fun _ => .pure fun _ => id

theorem lock_sound (args : List Bytes) :
    Returns (fun r => Sound env gitDir r ∧ ∀ vars rest, parseOptions lockOptions {} args = .ok (vars, rest) →
      LeadsToOwnKey env gitDir r vars.keyName) (lock env args) fun _ => Sound env gitDir := by
  have hleave (P : Repo → Prop) (status : Nat) (lines : List Bytes) :
      Returns (fun r => Sound env gitDir r ∧ P r) (leave status lines) fun _ => Sound env gitDir :=
    ((leave_quiet _ _).returns _).post fun _ r hr => hr.1
  unfold lock
  split
  · exact .raise _
  · rename_i vars rest hparse
    refine .ite (fun _ => hleave _ _ _) fun _ => .ite (fun _ => hleave _ _ _) fun _ => ?_
    refine getGitStatus_quiet.andThen fun _ => .ite (fun _ => hleave _ _ _) fun _ => ?_
    refine .bind (R := fun _ => Sound env gitDir) (.ite (fun _ => ?_) fun _ => ?_) fun files => ?_
    · refine getInternalKeysPath_quiet.andThen fun _ =>
        .bind (getDirectoryContents_returns _ _) fun dirents => .of_start fun r₀ ⟨hr, hnames⟩ => ?_
      exact .bind ((lockKeys_sound hnames).start hr.1) fun _ => .pure fun _ => id
    · exact (lockGivenKey_sound _).pre fun r hr => ⟨hr.1, hr.2 vars rest hparse⟩
    · split
      · exact .pure fun _ => id
      · exact (checkOutFiles_readsOnly _ _).returns _

end

/-! ### Runs -/

inductive Invocation where
  | init (args : List Bytes)
  | unlock (args : List Bytes)
  | lock (args : List Bytes)

def Invocation.run (env : Env) : Invocation → Action Nat
  | .init args => GitCrypt.init env args
  | .unlock args => GitCrypt.unlock env args
  | .lock args => GitCrypt.lock env args

/-- In a process of its own the command returns 0. -/
def Succeeds (gitDir : Location) (env : Env) (invocation : Invocation) (repo repo' : Repo) : Prop :=
  Located env gitDir repo ∧ ∃ w, invocation.run env (repo.start env) = (.ok 0, w) ∧ w.toRepo = repo'

/-- A `lock` is not given the path of another installed key file for a key name. -/
def LocksOwnKey (gitDir : Location) (env : Env) (repo : Repo) : Invocation → Prop
  | .lock args => ∀ vars rest, parseOptions lockOptions {} args = .ok (vars, rest) →
      LeadsToOwnKey env gitDir repo vars.keyName
  | _ => True

/-- A repository in which git-crypt has not been used. -/
def NoState (gitDir : Location) (repo : Repo) : Prop :=
  repo.fs.find (str "git-crypt" :: gitDir) = none ∧
    ∀ p ∈ repo.config, ¬ str "filter.git-crypt" <+: p.1 ∧ ¬ str "diff.git-crypt" <+: p.1

theorem NoState.consistent {gitDir : Location} {repo : Repo} (h : NoState gitDir repo) :
    Consistent gitDir repo := by
  refine fun keyName _ => iff_of_false ?_ ?_
  · rintro ⟨bytes, hf⟩
    have hd : repo.fs.find (str "git-crypt" :: gitDir) = some .dir :=
      FileSystem.find_of_below [keyName.getD (str "default"), str "keys"] (by simp)
        (Option.isSome_iff_exists.mpr ⟨_, hf⟩)
    rw [h.1] at hd
    cases hd
  · intro hset
    have hs := hset (str "filter." ++ attributeName keyName ++ str ".smudge") (by simp [filterVariables])
    rw [getConfig, Option.isSome_map, List.find?_isSome] at hs
    obtain ⟨p, hp, hname⟩ := hs
    refine (h.2 p hp).1 ?_
    rw [of_decide_eq_true hname]
    cases keyName with
    | none => exact ⟨str ".smudge", rfl⟩
    | some name => exact ⟨str "-" ++ name ++ str ".smudge", by simp [attributeName, str]⟩

theorem Succeeds.consistent {gitDir : Location} {env : Env} {invocation : Invocation} {repo repo' : Repo}
    (h : Succeeds gitDir env invocation repo repo') (hlock : LocksOwnKey gitDir env repo invocation)
    (hc : Consistent gitDir repo) : Consistent gitDir repo' := by
  obtain ⟨hloc, w, hrun, rfl⟩ := h
  have hs : Sound env gitDir (repo.start env).toRepo := ⟨hloc, hc⟩
  cases invocation with
  | init args => exact ((init_sound args).of_run hs hrun rfl).2
  | unlock args => exact ((unlock_sound args).of_run hs hrun rfl).2
  | lock args => exact ((lock_sound args).of_run ⟨hs, hlock⟩ hrun).2

/-- In every run of commands that return 0 and lock no key through the path of another, a
key file is there exactly when its filters are configured. -/
theorem keyFile_iff_filters {gitDir : Location} {repo₀ repo : Repo} (h₀ : NoState gitDir repo₀)
    (hrun : Relation.ReflTransGen (fun repo repo' => ∃ env invocation,
      Succeeds gitDir env invocation repo repo' ∧ LocksOwnKey gitDir env repo invocation) repo₀ repo)
    {keyName : Option Bytes} (hn : LegalKeyName keyName) :
    HasKeyFile gitDir repo keyName ↔ FiltersConfigured repo keyName := by
  have hc : Consistent gitDir repo := by
    induction hrun with
    | refl => exact h₀.consistent
    | tail _ hstep ih =>
      obtain ⟨env, invocation, hs, hlock⟩ := hstep
      exact hs.consistent hlock ih
  exact hc keyName hn

/-- The repository after a command in it. -/
def Repo.after (repo : Repo) (invocation : Invocation) : Repo :=
  (invocation.run freshEnv (repo.start freshEnv)).2.toRepo

def initialised : Repo := freshRepo.after (.init [])

def lockedDefault : Repo := initialised.after (.lock [str "-k", str "default"])

private theorem succeeds_after {repo : Repo} {invocation : Invocation}
    (hl : repo.fs.resolve [] (gitDirPath freshEnv) = .ok [str ".git"])
    (h : (invocation.run freshEnv (repo.start freshEnv)).1 = .ok 0) :
    Succeeds [str ".git"] freshEnv invocation repo (repo.after invocation) :=
  ⟨hl, _, Prod.ext h rfl, rfl⟩

private theorem noState_freshRepo : NoState [str ".git"] freshRepo :=
  ⟨by decide +kernel, fun p hp => by simp [freshRepo] at hp⟩

private theorem succeeds_initialised : Succeeds [str ".git"] freshEnv (.init []) freshRepo initialised :=
  succeeds_after (by decide +kernel) (by decide +kernel)

theorem keyFile_iff_filters_initialised :
    HasKeyFile [str ".git"] initialised none ↔ FiltersConfigured initialised none :=
  keyFile_iff_filters noState_freshRepo (.single ⟨freshEnv, .init [], succeeds_initialised, trivial⟩)
    fun name hname => by cases hname

/-- `lock -k default` takes away the file of the default key and leaves its filters. -/
theorem lock_default_leaves_filters :
    NoState [str ".git"] freshRepo ∧
      Succeeds [str ".git"] freshEnv (.init []) freshRepo initialised ∧
      Succeeds [str ".git"] freshEnv (.lock [str "-k", str "default"]) initialised lockedDefault ∧
      ¬ (HasKeyFile [str ".git"] lockedDefault none ↔ FiltersConfigured lockedDefault none) := by
  refine ⟨noState_freshRepo, succeeds_initialised,
    succeeds_after (by decide +kernel) (by decide +kernel), fun h => ?_⟩
  have hnone : lockedDefault.fs.find (keyLocation [str ".git"] none) = none := by decide +kernel
  have hset : ∀ v ∈ filterVariables none, (getConfig lockedDefault.config v).isSome = true := by
    decide +kernel
  obtain ⟨bytes, hf⟩ := h.mpr hset
  rw [hnone] at hf
  cases hf

end GitCrypt
