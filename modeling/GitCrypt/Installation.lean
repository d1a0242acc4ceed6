import GitCrypt.Consistency

/-! What `init` and `unlock` leave when they install keys: the file and the settings of each
name they were given, and those of the other names as they were. -/
namespace GitCrypt
open Iostream Posix
variable {env : Env} {gitDir : Location}

/-- The key file of a name is this one, and its filters are configured. -/
structure KeyInstalled (env : Env) (gitDir : Location) (r : Repo) (keyName : Option Bytes)
    (keyFile : KeyFile) : Prop where
  file : r.fs.find (keyLocation gitDir keyName) = some (.file keyFile.store)
  settings : ∀ p ∈ filterSettings env keyName, getConfig r.config p.1 = some p.2

/-- The key file and the variables of a name are the same in both. -/
structure SameKey (gitDir : Location) (keyName : Option Bytes) (r r' : Repo) : Prop where
  file : ∀ bytes, r'.fs.find (keyLocation gitDir keyName) = some (.file bytes) ↔
    r.fs.find (keyLocation gitDir keyName) = some (.file bytes)
  config : ∀ v, configSection v ∈ filterSections keyName → getConfig r'.config v = getConfig r.config v

section
variable {r r' r'' : Repo} {keyName other : Option Bytes} {keyFile : KeyFile}

theorem SameKey.refl (r : Repo) : SameKey gitDir keyName r r := ⟨fun _ => Iff.rfl, fun _ _ => rfl⟩

theorem SameKey.trans (h : SameKey gitDir keyName r r') (h' : SameKey gitDir keyName r' r'') :
    SameKey gitDir keyName r r'' :=
  ⟨fun bytes => (h'.file bytes).trans (h.file bytes), fun v hv => (h'.config v hv).trans (h.config v hv)⟩

theorem KeyInstalled.same (h : KeyInstalled env gitDir r keyName keyFile) (hs : SameKey gitDir keyName r r') :
    KeyInstalled env gitDir r' keyName keyFile := by
  refine ⟨(hs.file _).mpr h.file, fun p hp => ?_⟩
  rw [hs.config p.1 (configSection_mem (List.mem_map_of_mem hp)), h.settings p hp]

/-- The files of different keys lie at different places. -/
theorem keyLocation_ne (hn : LegalKeyName keyName) (ho : LegalKeyName other) (hne : other ≠ keyName) :
    keyLocation gitDir other ≠ keyLocation gitDir keyName :=
  fun he => hne (ho.eq_of_getD hn (List.cons.inj he).1)

theorem TreeFrom.sameKey (h : TreeFrom r (· = keyLocation gitDir keyName) r')
    (hne : keyLocation gitDir other ≠ keyLocation gitDir keyName) : SameKey gitDir other r r' :=
  ⟨h.1.files _ hne, fun v _ => by rw [h.2]⟩

theorem ConfigFrom.sameKey (h : ConfigFrom r keyName r') (hne : other ≠ keyName) :
    SameKey gitDir other r r' :=
  ⟨fun bytes => by rw [h.1], fun v hv => h.2 v (filterSections_disjoint hne hv)⟩

end

theorem installKeyFile_installs {r₀ : Repo} (hloc : Located env gitDir r₀) {keyName : Option Bytes}
    (hn : LegalKeyName keyName) (keyFile : KeyFile) :
    Returns (· = r₀) (installKeyFile env keyFile (internalKeyPath env keyName)) fun ok r =>
      TreeFrom r₀ (· = keyLocation gitDir keyName) r ∧
        (ok = true → r.fs.find (keyLocation gitDir keyName) = some (.file keyFile.store)) := by
  have hp := hloc.leadsOnlyTo hn.isName
  refine .bind ((mkdirParent_treeFrom r₀ (· = keyLocation gitDir keyName) _).start (.refl r₀ _)) fun _ => ?_
  have hstore := (storeToFile_returns hp keyFile).and (storeToFile_contents keyFile (internalKeyPath env keyName))
  refine .bind (hstore.pre fun _ hr => ⟨hr, trivial⟩) fun ok => .ite (fun hok => .pure ?_) fun _ => ?_
  · rintro r ⟨⟨ht, -⟩, hread⟩
    obtain ⟨loc, hr, hf⟩ := FileSystem.readFile_ok.mp (hread hok)
    exact ⟨ht, fun _ => (hloc.mono ht.1.dirs).eq_keyLocation hn.isName hr ▸ hf⟩
  · exact (logLines_quiet _).andThen fun _ => .pure fun r hr => ⟨hr.1.1, by simp⟩

/-- A key that has been stored and configured is installed; other keys are as they were. -/
theorem installAndConfigure_installs {r₀ : Repo} (hloc : Located env gitDir r₀) {keyFile : KeyFile}
    {keyName : Option Bytes} (hn : LegalKeyName keyName) {r₁ : Repo}
    (ht : TreeFrom r₀ (· = keyLocation gitDir keyName) r₁)
    (hf : r₁.fs.find (keyLocation gitDir keyName) = some (.file keyFile.store)) :
    Returns (· = r₁) (configureGitFilters env keyName) fun _ r =>
      Located env gitDir r ∧ KeyInstalled env gitDir r keyName keyFile ∧
        ∀ other, LegalKeyName other → other ≠ keyName → SameKey gitDir other r₀ r := by
  refine (configureGitFilters_returns r₁ keyName).post fun _ r ⟨hc, hset⟩ => ⟨?_, ⟨?_, hset⟩, ?_⟩
  · rw [Located, hc.1]
    exact hloc.mono ht.1.dirs
  · rw [hc.1, hf]
  · exact fun other ho hne => (ht.sameKey (keyLocation_ne hn ho hne)).trans (hc.sameKey hne)

/-- Of the key files of one name the last is the one that stays. -/
def lastOfName (keyFiles : List KeyFile) (keyName : Option Bytes) : Option KeyFile :=
  (keyFiles.filter (·.getKeyName = keyName)).getLast?

theorem lastOfName_cons (keyFile : KeyFile) (keyFiles : List KeyFile) (keyName : Option Bytes) :
    lastOfName (keyFile :: keyFiles) keyName =
      (lastOfName keyFiles keyName).or (if keyFile.getKeyName = keyName then some keyFile else none) := by
  unfold lastOfName
  by_cases h : keyFile.getKeyName = keyName
  · rw [List.filter_cons_of_pos (by simpa using h), List.getLast?_cons, if_pos h]
    cases (keyFiles.filter (·.getKeyName = keyName)).getLast? <;> rfl
  · rw [List.filter_cons_of_neg (by simpa using h), if_neg h, Option.or_none]

/-- What `unlock` leaves of its key files: for each name the last one given, or, where none
was given, what was there. -/
structure Installed (env : Env) (gitDir : Location) (keyFiles : List KeyFile) (r r' : Repo) : Prop where
  located : Located env gitDir r'
  given : ∀ keyName keyFile, LegalKeyName keyName → lastOfName keyFiles keyName = some keyFile →
    KeyInstalled env gitDir r' keyName keyFile
  others : ∀ keyName, LegalKeyName keyName → lastOfName keyFiles keyName = none →
    SameKey gitDir keyName r r'

theorem Installed.cons {keyFile : KeyFile} {keyFiles : List KeyFile} {r r₁ r' : Repo}
    (hkey : KeyInstalled env gitDir r₁ keyFile.getKeyName keyFile)
    (hsame : ∀ other, LegalKeyName other → other ≠ keyFile.getKeyName → SameKey gitDir other r r₁)
    (h : Installed env gitDir keyFiles r₁ r') : Installed env gitDir (keyFile :: keyFiles) r r' := by
  refine ⟨h.located, fun keyName last hn hlast => ?_, fun keyName hn hnone => ?_⟩
  · rw [lastOfName_cons, Option.or_eq_some_iff] at hlast
    rcases hlast with hlater | ⟨hnone, hfirst⟩
    · exact h.given keyName last hn hlater
    · obtain ⟨rfl, rfl⟩ : keyFile.getKeyName = keyName ∧ keyFile = last := by
        simpa [Option.ite_none_right_eq_some] using hfirst
      exact hkey.same (h.others _ hn hnone)
  · rw [lastOfName_cons, Option.or_eq_none_iff] at hnone
    have hne : keyName ≠ keyFile.getKeyName := fun he => by simp [he] at hnone
    exact (hsame keyName hn hne).trans (h.others keyName hn hnone.1)

private theorem installKeyFiles_installs {keyFiles : List KeyFile}
    (h : ∀ keyFile ∈ keyFiles, LegalKeyName keyFile.getKeyName) {r₀ : Repo} (hloc : Located env gitDir r₀) :
    Returns (· = r₀) (installKeyFiles env keyFiles) fun files r =>
      files.isSome = true → Installed env gitDir keyFiles r₀ r := by
  induction keyFiles generalizing r₀ with
  | nil =>
    refine .pure fun r hr _ => ?_
    subst hr
    refine ⟨hloc, fun _ _ _ hlast => ?_, fun _ _ _ => .refl r⟩
    cases hlast
  | cons keyFile keyFiles ih =>
    rw [List.forall_mem_cons] at h
    refine .bind (getInternalKeyPath_returns _ _) fun path => .of_start fun r ⟨hr, hpath⟩ => ?_
    subst hr hpath
    refine .bind (installKeyFile_installs hloc h.1 keyFile) fun ok =>
      .ite (fun _ => .pure fun _ _ => by simp) fun hok => .of_start fun r₁ ⟨ht, hf⟩ => ?_
    refine .bind (installAndConfigure_installs hloc h.1 ht (hf (by simpa using hok))) fun _ => ?_
    refine (getEncryptedFiles_quiet _).andThen fun files => .of_start fun r₂ ⟨hloc₂, hkey, hsame⟩ => ?_
    refine .bind (ih h.2 hloc₂) fun rest => ?_
    split
    · exact .pure fun _ _ => by simp
    · exact .pure fun r' hinst _ => (hinst rfl).cons hkey hsame

/-- The key files `unlock` has read when it starts to install. -/
def UnlockReads (env : Env) (repo : Repo) (args : List Bytes) (keyFiles : List KeyFile) : Prop :=
  ∃ statusOutput w₁ w₂, getGitStatus env (repo.start env) = (.ok statusOutput, w₁) ∧
    unlockKeyFiles env args w₁ = (.ok (some keyFiles), w₂)

theorem UnlockReads.storable {repo : Repo} {args : List Bytes} {keyFiles : List KeyFile}
    (h : UnlockReads env repo args keyFiles) : ∀ keyFile ∈ keyFiles, keyFile.Storable := by
  obtain ⟨_, w₁, w₂, -, hread⟩ := h
  exact (unlockKeyFiles_yields args).of_run trivial hread keyFiles rfl

/-- An `unlock` that returns 0 has installed all key files it has read. -/
theorem unlock_installs {repo : Repo} (hloc : Located env gitDir repo) {args : List Bytes}
    {keyFiles : List KeyFile} (hreads : UnlockReads env repo args keyFiles) {w : World}
    (hrun : unlock env args (repo.start env) = (.ok 0, w)) : Installed env gitDir keyFiles repo w.toRepo := by
  have hlegal := fun keyFile h => KeyFile.legalKeyName_of_storable (hreads.storable keyFile h)
  obtain ⟨statusOutput, w₁, w₂, hstatus, hread⟩ := hreads
  have hrepo : w₂.toRepo = repo := by
    have h₁ : (getGitStatus env (repo.start env)).2.toRepo = repo := getGitStatus_quiet.readsOnly _
    have h₂ : (unlockKeyFiles env args w₁).2.toRepo = w₁.toRepo := (unlockKeyFiles_quiet args).readsOnly w₁
    rw [hstatus] at h₁
    rw [hread] at h₂
    exact h₂.trans h₁
  obtain ⟨_, _, hs, hrun⟩ := Prog.bind_ok hrun
  rw [hstatus] at hs
  cases hs
  split at hrun
  · cases hrun
  · obtain ⟨_, _, hk, hrun⟩ := Prog.bind_ok hrun
    rw [hread] at hk
    cases hk
    obtain ⟨files, w₃, hinstall, hrun⟩ := Prog.bind_ok hrun
    have hinst := (installKeyFiles_installs hlegal hloc).of_run hrepo hinstall
    cases files with
    | none => cases hrun
    | some files =>
      have hrest : w.toRepo = w₃.toRepo :=
        ((checkOutFiles_readsOnly _ _).returns (· = w₃.toRepo)).of_run rfl hrun
      rw [hrest]
      exact hinst rfl

/-- What `init` generates carries the name it was given. -/
theorem generateKey_yields {keyName : Option Bytes} (hn : LegalKeyName keyName) :
    Yields (generateKey env (KeyFile.empty.setKeyName keyName)) fun keyFile =>
      keyFile.getKeyName = keyName ∧ keyFile.Storable := by
  refine randomDraw_quiet.andThen fun draw => ?_
  split
  · rename_i generated hg
    obtain ⟨e, he⟩ : ∃ e, generated = (KeyFile.empty.setKeyName keyName).add e :=
      ⟨_, (congrArg Prod.fst hg).symm⟩
    rw [he]
    exact .pure fun _ _ =>
      ⟨KeyFile.getKeyName_setKeyName_add _ hn e, KeyFile.storable_setKeyName_add _ hn e⟩
  · exact .raise _

private theorem initKey_installs {keyName : Option Bytes} (hn : LegalKeyName keyName) {r₀ : Repo}
    (hloc : Located env gitDir r₀) :
    Returns (· = r₀) (initKey env keyName) fun status r => status = 0 → Located env gitDir r ∧
      ∃ keyFile, (keyFile.getKeyName = keyName ∧ keyFile.Storable) ∧
        KeyInstalled env gitDir r keyName keyFile := by
  refine .bind (getInternalKeyPath_returns _ _) fun path => .of_start fun r ⟨hr, hpath⟩ => ?_
  subst hr hpath
  refine (access_quiet _).andThen fun res => ?_
  split
  · exact (logLines_quiet _).andThen fun _ => .pure fun _ _ => by simp
  · refine (logLines_quiet _).andThen fun _ =>
      .bind ((generateKey_yields hn).keeping (generateKey_quiet _) _) fun keyFile =>
        .of_start fun r₁ ⟨hr₁, hname⟩ => ?_
    subst hr₁
    refine .bind (installKeyFile_installs hloc hn keyFile) fun ok =>
      .ite (fun _ => .pure fun _ _ => by simp) fun hok => .of_start fun r₁ ⟨ht, hf⟩ => ?_
    refine .bind (installAndConfigure_installs hloc hn ht (hf (by simpa using hok))) fun _ => .pure ?_
    exact fun r' ⟨hloc', hkey, _⟩ _ => ⟨hloc', keyFile, hname, hkey⟩

theorem init_installs {args : List Bytes} {keyName : Option Bytes}
    (hparse : parseOptions (keyNameOptions fun value _ => some value) none args = .ok (keyName, []))
    {r₀ : Repo} (hloc : Located env gitDir r₀) :
    Returns (· = r₀) (init env args) fun status r => status = 0 → LegalKeyName keyName ∧
      ∃ keyFile, (keyFile.getKeyName = keyName ∧ keyFile.Storable) ∧
        KeyInstalled env gitDir r keyName keyFile := by
  have hkey (hn : LegalKeyName keyName) := (initKey_installs hn hloc).post fun status r h hstatus =>
    And.intro hn (h hstatus).2
  unfold init
  rw [hparse]
  refine .ite (fun h => absurd h.2 (by simp)) fun _ => .ite (fun h => absurd rfl h) fun _ => ?_
  cases keyName with
  | none => exact hkey fun name hname => by cases hname
  | some name =>
    refine .bind ((validateKeyNameOrThrow_yields name).keeping (validateKeyNameOrThrow_quiet name) _)
      fun _ => .of_start fun r ⟨hr, hn⟩ => ?_
    subst hr
    exact hkey hn

/-! ### Keys that are lost -/

/-- The internal key file of a name has this entry for a version. -/
def Available (gitDir : Location) (r : Repo) (keyName : Option Bytes) (version : UInt32) (key : Entry) : Prop :=
  ∃ bytes keyFile, r.fs.find (keyLocation gitDir keyName) = some (.file bytes) ∧
    KeyFile.loadBytes bytes = .ok keyFile ∧ keyFile.get version = some key

theorem available_iff {r : Repo} {keyName : Option Bytes} {keyFile : KeyFile} (hs : keyFile.Storable)
    (hfile : r.fs.find (keyLocation gitDir keyName) = some (.file keyFile.store)) {version : UInt32} {key : Entry} :
    Available gitDir r keyName version key ↔ keyFile.get version = some key := by
  constructor
  · rintro ⟨bytes, keyFile', hf, hload, hget⟩
    rw [hfile] at hf
    cases hf
    rw [KeyFile.loadBytes_store hs] at hload
    cases hload
    exact hget
  · exact fun hget => ⟨_, keyFile, hfile, KeyFile.loadBytes_store hs, hget⟩

/-- Whatever was installed or given under a name is available under it. -/
structure NoKeyLost (gitDir : Location) (keyFiles : List KeyFile) (r r' : Repo) : Prop where
  installed : ∀ keyName, LegalKeyName keyName → ∀ version key,
    Available gitDir r keyName version key → Available gitDir r' keyName version key
  given : ∀ keyFile ∈ keyFiles, ∀ version key,
    keyFile.get version = some key → Available gitDir r' keyFile.getKeyName version key

/-- The last key file given under a name has all that was installed and given under it. -/
def LastHoldsAll (gitDir : Location) (keyFiles : List KeyFile) (r : Repo) : Prop :=
  ∀ keyName last, lastOfName keyFiles keyName = some last → ∀ version key,
    (Available gitDir r keyName version key ∨
      ∃ keyFile ∈ keyFiles, keyFile.getKeyName = keyName ∧ keyFile.get version = some key) →
    last.get version = some key

theorem Installed.noKeyLost_iff {keyFiles : List KeyFile} {r r' : Repo}
    (h : Installed env gitDir keyFiles r r') (hs : ∀ keyFile ∈ keyFiles, keyFile.Storable) :
    NoKeyLost gitDir keyFiles r r' ↔ LastHoldsAll gitDir keyFiles r := by
  have hlast (keyName last) (hl : lastOfName keyFiles keyName = some last) :
      LegalKeyName keyName ∧ ∀ version key,
        Available gitDir r' keyName version key ↔ last.get version = some key := by
    obtain ⟨hmem, hname⟩ := List.mem_filter.mp (List.mem_of_getLast? hl)
    have hn : LegalKeyName keyName := by
      rw [← of_decide_eq_true hname]
      exact KeyFile.legalKeyName_of_storable (hs last hmem)
    exact ⟨hn, fun _ _ => available_iff (hs last hmem) (h.given keyName last hn hl).file⟩
  constructor
  · intro hkept keyName last hl version key hheld
    obtain ⟨hn, havail⟩ := hlast keyName last hl
    apply (havail version key).mp
    rcases hheld with hbefore | ⟨keyFile, hmem, rfl, hget⟩
    · exact hkept.installed keyName hn version key hbefore
    · exact hkept.given keyFile hmem version key hget
  · intro hall
    constructor
    · intro keyName hn version key hbefore
      cases hl : lastOfName keyFiles keyName with
      | none =>
        obtain ⟨bytes, keyFile, hf, hload, hget⟩ := hbefore
        exact ⟨bytes, keyFile, ((h.others keyName hn hl).file bytes).mpr hf, hload, hget⟩
      | some last => exact ((hlast keyName last hl).2 version key).mpr (hall keyName last hl version key (.inl hbefore))
    · intro keyFile hmem version key hget
      obtain ⟨last, hl⟩ : ∃ last, lastOfName keyFiles keyFile.getKeyName = some last := by
        rw [← Option.isSome_iff_exists, lastOfName, List.getLast?_isSome]
        exact List.ne_nil_of_mem (List.mem_filter.mpr ⟨hmem, by simp⟩)
      exact ((hlast _ last hl).2 version key).mpr
        (hall _ last hl version key (.inr ⟨keyFile, hmem, rfl, hget⟩))

/-- An `unlock` with key files that returns 0 loses no key exactly when, of the files with one
name, the last one given holds every key of the others and of the one it replaces. -/
theorem unlock_keeps_keys_iff {repo : Repo} {args : List Bytes} {keyFiles : List KeyFile} {w : World}
    (hloc : Located env gitDir repo) (_hargs : args ≠ []) (hreads : UnlockReads env repo args keyFiles)
    (hrun : unlock env args (repo.start env) = (.ok 0, w)) :
    NoKeyLost gitDir keyFiles repo w.toRepo ↔ LastHoldsAll gitDir keyFiles repo :=
  (unlock_installs hloc hreads hrun).noKeyLost_iff hreads.storable

/-- A key file without the version that `init` gives its key. -/
def laterKey : KeyFile := KeyFile.empty.add ⟨1, Buffer.zero, Buffer.zero⟩

def laterKeyEnv : Env := { freshEnv with stdin := laterKey.store }

/-- A stored key file is read from the standard input. -/
private theorem unlockKeyFiles_stdin (env : Env) {keyFile : KeyFile} (hs : keyFile.Storable) {w : World}
    (hcin : w.cin = .ofBytes keyFile.store) :
    ∃ w', unlockKeyFiles env [str "-"] w = (.ok (some [keyFile]), w') := by
  obtain ⟨rest, hload⟩ := KeyFile.load_of_loadBytes (KeyFile.loadBytes_store hs)
  rw [← hcin] at hload
  refine ⟨{ w with cin := rest }, ?_⟩
  have hget (k : World → Action (Option KeyFile)) : (get >>= k) w = k w w := rfl
  have hread : loadSymmetricKeyFile env (str "-") w = (.ok (some keyFile), { w with cin := rest }) := by
    unfold loadSymmetricKeyFile
    rw [if_pos rfl, hget, hload]
    rfl
  have hall : readSymmetricKeyFiles env [str "-"] w = (.ok (some [keyFile]), { w with cin := rest }) :=
    (Prog.bind_of_ok (Prog.tryCatch_of_ok hread _) _).trans rfl
  unfold unlockKeyFiles
  rw [if_pos (by simp)]
  exact hall

private theorem unlock_laterKey : Located laterKeyEnv [str ".git"] initialised ∧
    UnlockReads laterKeyEnv initialised [str "-"] [laterKey] ∧
    ∃ w, unlock laterKeyEnv [str "-"] (initialised.start laterKeyEnv) = (.ok 0, w) := by
  have hstatus : (getGitStatus laterKeyEnv (initialised.start laterKeyEnv)).1 = .ok (outputStream []) := by
    decide +kernel
  have hcin : (getGitStatus laterKeyEnv (initialised.start laterKeyEnv)).2.cin = .ofBytes laterKey.store := by
    decide +kernel
  obtain ⟨w, hread⟩ := unlockKeyFiles_stdin laterKeyEnv (Or.inl rfl) hcin
  refine ⟨?_, ⟨_, _, w, Prod.ext hstatus rfl, hread⟩, ?_⟩
  · unfold Located
    decide +kernel
  · have h : (unlock laterKeyEnv [str "-"] (initialised.start laterKeyEnv)).1 = .ok 0 := by decide +kernel
    generalize unlock laterKeyEnv [str "-"] (initialised.start laterKeyEnv) = run at h
    exact ⟨run.2, Prod.ext h rfl⟩

theorem unlock_keeps_keys_iff_laterKey : ∃ w,
    unlock laterKeyEnv [str "-"] (initialised.start laterKeyEnv) = (.ok 0, w) ∧
      (NoKeyLost [str ".git"] [laterKey] initialised w.toRepo ↔
        LastHoldsAll [str ".git"] [laterKey] initialised) := by
  obtain ⟨hloc, hreads, w, hrun⟩ := unlock_laterKey
  exact ⟨w, hrun, unlock_keeps_keys_iff hloc (by simp) hreads hrun⟩

/-- Unlocking with another key file takes away the key `init` has made. -/
theorem unlock_replaces_key : ∃ w, Located laterKeyEnv [str ".git"] initialised ∧
    UnlockReads laterKeyEnv initialised [str "-"] [laterKey] ∧
    unlock laterKeyEnv [str "-"] (initialised.start laterKeyEnv) = (.ok 0, w) ∧
    ¬ NoKeyLost [str ".git"] [laterKey] initialised w.toRepo := by
  obtain ⟨hloc, hreads, w, hrun⟩ := unlock_laterKey
  refine ⟨w, hloc, hreads, hrun, fun hkept => ?_⟩
  have hlegal : LegalKeyName none := fun name hname => by cases hname
  have hs : (KeyFile.empty.add ⟨0, Buffer.zero, Buffer.zero⟩).Storable := Or.inl rfl
  have hbefore : Available [str ".git"] initialised none 0 ⟨0, Buffer.zero, Buffer.zero⟩ :=
    (available_iff hs (by decide +kernel)).mpr (by decide +kernel)
  obtain ⟨_, keyFile, hf, hload, hget⟩ := hkept.installed none hlegal 0 _ hbefore
  have hfile := ((unlock_installs hloc hreads hrun).given none laterKey hlegal rfl).file
  have hafter := (available_iff (hreads.storable laterKey (by simp)) hfile).mp ⟨_, keyFile, hf, hload, hget⟩
  exact absurd hafter (by decide +kernel)

end GitCrypt
