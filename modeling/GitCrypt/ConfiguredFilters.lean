import GitCrypt.Library.Shell
import GitCrypt.Runs
import GitCrypt.Installation

/-! The commands `configure_git_filters` writes, as git has a shell run them: the words they
are split into, the options in these words, and the key file the filters then load. -/
namespace GitCrypt
open Iostream Posix
variable {env : Env} {gitDir : Location}

private theorem isPlain_of_keyNameChar {c : UInt8} (h : KeyNameChar c) : Shell.IsPlain c := by
  by_contra hp
  have hmem := Shell.mem_of_not_isPlain hp
  simp only [List.mem_cons, List.not_mem_nil, or_false] at hmem
  rcases hmem with rfl | rfl | rfl | rfl | rfl | rfl | rfl | rfl | rfl | rfl | rfl | rfl | rfl | rfl |
    rfl | rfl | rfl | rfl | rfl | rfl | rfl | rfl | rfl | rfl | rfl
  all_goals exact absurd h (by decide)

/-- The names of the filters are plain words, and so is the argument with a legal name. -/
theorem plain_filterWords {keyName : Option Bytes} (hn : LegalKeyName keyName) {filter : Bytes}
    (hf : filter ∈ [str "smudge", str "clean", str "diff"]) :
    ∀ a ∈ filter :: keyNameArgs keyName, a ≠ [] ∧ ∀ c ∈ a, Shell.IsPlain c := by
  rw [List.forall_mem_cons]
  constructor
  · simp only [List.mem_cons, List.not_mem_nil, or_false] at hf
    rcases hf with rfl | rfl | rfl <;> decide +kernel
  · intro a ha
    obtain ⟨name, hname, rfl⟩ := List.mem_map.mp ha
    have hv := validKeyName_iff.mp (hn name (Option.mem_toList.mp hname))
    refine ⟨by simp [str], fun c hc => ?_⟩
    rcases List.mem_append.mp hc with hc | hc
    · exact (by decide +kernel : ∀ c ∈ str "--key-name=", Shell.IsPlain c) c hc
    · exact isPlain_of_keyNameChar (hv.2.2.1 c hc)

private theorem words_filterCommand (hexe : (0 : UInt8) ∉ env.exePath) {keyName : Option Bytes}
    (hn : LegalKeyName keyName) {filter : Bytes} (hf : filter ∈ [str "smudge", str "clean", str "diff"]) :
    Shell.words (filterCommand env keyName filter) =
      some (env.exePath :: filter :: keyNameArgs keyName) :=
  Shell.words_quoteDouble hexe (plain_filterWords hn hf)

/-- Git replaces what follows a percent sign before it calls the shell; there is none. -/
private theorem percent_notMem_filterCommand (hexe : (37 : UInt8) ∉ env.exePath) {keyName : Option Bytes}
    (hn : LegalKeyName keyName) {filter : Bytes} (hf : filter ∈ [str "smudge", str "clean", str "diff"]) :
    (37 : UInt8) ∉ filterCommand env keyName filter := by
  intro h
  rcases List.mem_append.mp h with h | h
  · simp only [escapeShellArg, List.mem_append, List.mem_flatMap, or_assoc] at h
    rcases h with h | ⟨c, hc, h⟩ | h
    · exact absurd h (by decide)
    · split_ifs at h
      · simp only [List.mem_cons, List.not_mem_nil, or_false] at h
        rcases h with h | h
        · exact absurd h (by decide)
        · exact hexe (h ▸ hc)
      · exact hexe (List.mem_singleton.mp h ▸ hc)
    · exact absurd h (by decide)
  · obtain ⟨a, ha, h⟩ := List.mem_flatMap.mp h
    rcases List.mem_cons.mp h with h | h
    · exact absurd h (by decide)
    · exact absurd ((plain_filterWords hn hf a ha).2 37 h) (by decide)

theorem parsePlumbingOptions_keyNameArgs (keyName : Option Bytes) (rest : List Bytes)
    (hrest : ∀ a, rest.head? = some a → a.head? ≠ some 45) :
    parsePlumbingOptions (keyNameArgs keyName ++ rest) = .ok (⟨keyName, none⟩, rest) := by
  have hstop (vars : PlumbingOptions) := parseOptions_stop plumbingOptions vars hrest
  cases keyName with
  | none => exact hstop {}
  | some name =>
    have hread : readLongOption plumbingOptions {} (str "--key-name=" ++ name) rest.head? =
        .ok (⟨some name, none⟩, false) := rfl
    have hdash : ¬ ¬ ((str "--key-name=" ++ name).head? = some 45 ∧ 2 ≤ (str "--key-name=" ++ name).length) :=
      not_not.mpr ⟨rfl, by simp [str]⟩
    have hne : str "--key-name=" ++ name ≠ str "--" := fun he => by
      simpa [str] using congrArg List.length he
    change parseOptions plumbingOptions {} ((str "--key-name=" ++ name) :: rest) = _
    rw [parseOptions, if_neg hdash, if_neg hne]
    dsimp only
    rw [if_pos (show (str "--key-name=" ++ name).take 2 = str "--" from rfl), hread]
    exact hstop _

/-! ### The key file of a filter -/

def FilterRun.outcome (run : FilterRun) : OStream × Nat := (run.cout, exitStatus run.ending)

theorem loadKey_internal {w : World} {keyName : Option Bytes} {keyFile : KeyFile}
    (hloc : Located env gitDir w.toRepo) (hn : LegalKeyName keyName) (hs : keyFile.Storable)
    (hfile : w.fs.find (keyLocation gitDir keyName) = some (.file keyFile.store))
    (h₀ : env.fails w.ops = false) (h₁ : env.fails (w.ops + 1) = false) :
    loadKey env keyName none none w = (.ok keyFile,
      (w.note (.ran .gitRevParseGitDir 0)).note (.called (.read (internalKeyPath env keyName)) true)) := by
  have hread : w.fs.readFile env.cwd (internalKeyPath env keyName) = .ok keyFile.store :=
    FileSystem.readFile_ok.mpr ⟨_, hloc.resolve_keyLocation hn.isName (by rw [hfile]; rfl), hfile⟩
  obtain ⟨rest, hload⟩ := KeyFile.load_of_loadBytes (KeyFile.loadBytes_store hs)
  have hnot : ¬ env.fails (w.note (.ran .gitRevParseGitDir 0)).ops = true := by
    simpa [World.note] using h₁
  refine (Prog.bind_of_ok (getInternalKeyPath_run keyName h₀) _).trans ?_
  refine (Prog.bind_of_ok ((readFile_run (w := w.note _) hread).trans (if_neg hnot)) _).trans ?_
  change loaded (KeyFile.empty.load (.ofBytes keyFile.store)) _ = _
  rw [loaded_of_ok hload]
  rfl

/-- The variables that hold a command of a key, and the filter each is for. -/
def commandVariables (keyName : Option Bytes) : List (Bytes × Bytes) :=
  [(str "filter." ++ attributeName keyName ++ str ".smudge", str "smudge"),
    (str "filter." ++ attributeName keyName ++ str ".clean", str "clean"),
    (str "diff." ++ attributeName keyName ++ str ".textconv", str "diff")]

/-- The shell, and git before it, make these words of the command and expand nothing. -/
def SplitsInto (command : Bytes) (words : List Bytes) : Prop :=
  (37 : UInt8) ∉ command ∧ Shell.words command = some words

theorem mem_filterSettings (hexe : (0 : UInt8) ∉ env.exePath) (hpercent : (37 : UInt8) ∉ env.exePath)
    {keyName : Option Bytes} (hn : LegalKeyName keyName) {p : Bytes × Bytes} (hp : p ∈ commandVariables keyName) :
    ∃ command, (p.1, command) ∈ filterSettings env keyName ∧
      SplitsInto command (env.exePath :: p.2 :: keyNameArgs keyName) := by
  have hset : (p.1, filterCommand env keyName p.2) ∈ filterSettings env keyName ∧
      p.2 ∈ [str "smudge", str "clean", str "diff"] := by
    simp only [commandVariables, List.mem_cons, List.not_mem_nil, or_false] at hp
    rcases hp with rfl | rfl | rfl <;> simp [filterSettings]
  exact ⟨_, hset.1, percent_notMem_filterCommand hpercent hn hset.2, words_filterCommand hexe hn hset.2⟩

/-- The commands configured for a name are the program with the name of a filter and the
name of the key, and the filters started so work with one key file, the one in its place. -/
structure FiltersUse (env : Env) (gitDir : Location) (r : Repo) (keyName : Option Bytes)
    (keyFile : KeyFile) : Prop where
  file : r.fs.find (keyLocation gitDir keyName) = some (.file keyFile.store)
  words : ∀ p ∈ commandVariables keyName, ∃ command, getConfig r.config p.1 = some command ∧
    SplitsInto command (env.exePath :: p.2 :: keyNameArgs keyName)
  clean (P : Primitives) (env' : Env) : Located env' gitDir r → env'.fails 0 = false → env'.fails 1 = false →
    outcome (clean P env' (keyNameArgs keyName)) (r.start env') =
      (cleanWith P keyFile (.ofBytes env'.stdin)).outcome
  smudge (P : Primitives) (env' : Env) : Located env' gitDir r → env'.fails 0 = false → env'.fails 1 = false →
    outcome (smudge P env' (keyNameArgs keyName)) (r.start env') =
      (smudgeWith P keyFile (.ofBytes env'.stdin)).outcome
  diff (P : Primitives) (env' : Env) (filename : Bytes) : Located env' gitDir r → env'.fails 0 = false →
    env'.fails 1 = false → filename.head? ≠ some 45 →
    outcome (diff P env' (keyNameArgs keyName ++ [filename])) (r.start env') =
      outcome (diffFile P env' keyFile filename) { r.start env' with ops := 2 }

section
variable {r : Repo} {keyName : Option Bytes} {keyFile : KeyFile}

theorem outcome_filterStdin_internal (hloc : Located env gitDir r) (hn : LegalKeyName keyName)
    (hs : keyFile.Storable) (hfile : r.fs.find (keyLocation gitDir keyName) = some (.file keyFile.store))
    (h₀ : env.fails 0 = false) (h₁ : env.fails 1 = false) (usage : Bytes)
    (filter : KeyFile → IStream → FilterRun) :
    outcome (filterStdin env usage filter (keyNameArgs keyName)) (r.start env) =
      (filter keyFile (.ofBytes env.stdin)).outcome := by
  have hparse : parsePlumbingOptions (keyNameArgs keyName) = .ok (⟨keyName, none⟩, []) := by
    simpa using parsePlumbingOptions_keyNameArgs keyName [] (by simp)
  have hload := loadKey_internal (w := r.start env) hloc hn hs hfile h₀ h₁
  unfold outcome filterStdin
  rw [hparse]
  change (((loadKey env keyName none none >>= _) (r.start env)).2.cout,
    exitStatus ((loadKey env keyName none none >>= _) (r.start env)).1) = _
  rw [Prog.bind_of_ok hload]
  rfl

private theorem outcome_diff_internal (hloc : Located env gitDir r) (hn : LegalKeyName keyName)
    (hs : keyFile.Storable) (hfile : r.fs.find (keyLocation gitDir keyName) = some (.file keyFile.store))
    (h₀ : env.fails 0 = false) (h₁ : env.fails 1 = false) (P : Primitives) {filename : Bytes}
    (hname : filename.head? ≠ some 45) :
    outcome (diff P env (keyNameArgs keyName ++ [filename])) (r.start env) =
      outcome (diffFile P env keyFile filename) { r.start env with ops := 2 } := by
  have hparse : parsePlumbingOptions (keyNameArgs keyName ++ [filename]) = .ok (⟨keyName, none⟩, [filename]) :=
    parsePlumbingOptions_keyNameArgs keyName _ fun a ha => by cases ha; exact hname
  have hload := loadKey_internal (w := r.start env) hloc hn hs hfile h₀ h₁
  unfold diff
  rw [hparse]
  change outcome (loadKey env keyName none none >>= fun keyFile => diffFile P env keyFile filename) _ = _
  unfold outcome
  rw [Prog.bind_of_ok hload]
  exact outcome_diffFile P keyFile filename rfl rfl rfl

theorem KeyInstalled.filtersUse (h : KeyInstalled env gitDir r keyName keyFile)
    (hexe : (0 : UInt8) ∉ env.exePath) (hpercent : (37 : UInt8) ∉ env.exePath) (hn : LegalKeyName keyName)
    (hs : keyFile.Storable) : FiltersUse env gitDir r keyName keyFile where
  file := h.file
  words p hp := by
    obtain ⟨command, hmem, hsplit⟩ := mem_filterSettings hexe hpercent hn hp
    exact ⟨command, h.settings _ hmem, hsplit⟩
  clean P env' hloc h₀ h₁ := outcome_filterStdin_internal hloc hn hs h.file h₀ h₁ _ _
  smudge P env' hloc h₀ h₁ := outcome_filterStdin_internal hloc hn hs h.file h₀ h₁ _ _
  diff P env' filename hloc h₀ h₁ hname := outcome_diff_internal hloc hn hs h.file h₀ h₁ P hname

end

/-- For every program path and every key name, `configure_git_filters` writes commands that
are split into the words they were put together from; and the filters `init` and `unlock`
configure work with the key file that was installed under their name. -/
theorem configured_filters_use_installed_key {env : Env} (hexe : (0 : UInt8) ∉ env.exePath)
    (hpercent : (37 : UInt8) ∉ env.exePath) :
    (∀ keyName, LegalKeyName keyName →
      configureGitFilters env keyName = forM (filterSettings env keyName) (fun p => gitConfig env p.1 p.2) ∧
      ∀ p ∈ commandVariables keyName, ∃ command, (p.1, command) ∈ filterSettings env keyName ∧
        SplitsInto command (env.exePath :: p.2 :: keyNameArgs keyName)) ∧
    ∀ (gitDir : Location) (repo : Repo) (args : List Bytes) (w : World), Located env gitDir repo →
      (∀ keyName, parseOptions (keyNameOptions fun value _ => some value) none args = .ok (keyName, []) →
        init env args (repo.start env) = (.ok 0, w) →
        ∃ keyFile, keyFile.getKeyName = keyName ∧ FiltersUse env gitDir w.toRepo keyName keyFile) ∧
      (∀ keyFiles, UnlockReads env repo args keyFiles → unlock env args (repo.start env) = (.ok 0, w) →
        ∀ keyName keyFile, lastOfName keyFiles keyName = some keyFile →
          FiltersUse env gitDir w.toRepo keyName keyFile) := by
  refine ⟨fun keyName hn => ⟨configureGitFilters_eq env keyName, fun p hp =>
    mem_filterSettings hexe hpercent hn hp⟩, fun gitDir repo args w hloc => ⟨?_, ?_⟩⟩
  · intro keyName hparse hrun
    obtain ⟨hn, keyFile, ⟨hname, hs⟩, hinst⟩ := (init_installs hparse hloc).of_run rfl hrun rfl
    exact ⟨keyFile, hname, hinst.filtersUse hexe hpercent hn hs⟩
  · intro keyFiles hreads hrun keyName keyFile hlast
    obtain ⟨hmem, hname⟩ := List.mem_filter.mp (List.mem_of_getLast? hlast)
    have hs := hreads.storable keyFile hmem
    have hn : LegalKeyName keyName := by
      rw [← of_decide_eq_true hname]
      exact KeyFile.legalKeyName_of_storable hs
    exact ((unlock_installs hloc hreads hrun).given keyName keyFile hn hlast).filtersUse hexe hpercent hn hs

/-- The program in a directory whose name has to be quoted. -/
def quotedEnv : Env := { freshEnv with exePath := str "/opt/bob's tools/git-crypt" }

private theorem init_quotedEnv :
    ∃ w, init quotedEnv [str "-k", str "work-2"] (freshRepo.start quotedEnv) = (.ok 0, w) := by
  have h : (init quotedEnv [str "-k", str "work-2"] (freshRepo.start quotedEnv)).1 = .ok 0 := by decide +kernel
  generalize init quotedEnv [str "-k", str "work-2"] (freshRepo.start quotedEnv) = run at h
  exact ⟨run.2, Prod.ext h rfl⟩

/-- A named key, of which `init` has just configured the filters. -/
theorem configured_filters_use_installed_key_named :
    ∃ w, init quotedEnv [str "-k", str "work-2"] (freshRepo.start quotedEnv) = (.ok 0, w) ∧
      ∃ keyFile, keyFile.getKeyName = some (str "work-2") ∧
        FiltersUse quotedEnv [str ".git"] w.toRepo (some (str "work-2")) keyFile := by
  obtain ⟨w, hrun⟩ := init_quotedEnv
  have hloc : Located quotedEnv [str ".git"] freshRepo := by
    unfold Located
    decide +kernel
  have h := (@configured_filters_use_installed_key quotedEnv (by decide +kernel) (by decide +kernel)).2 _ _
    [str "-k", str "work-2"] w hloc
  exact ⟨w, hrun, h.1 (some (str "work-2")) (by decide +kernel) hrun⟩

end GitCrypt
