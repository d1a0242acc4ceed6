import GitCrypt.EncryptedFiles
import GitCrypt.Installation
import GitCrypt.Seen

/-! What `init`, `lock` and `unlock` leave alone of the other keys, whether they succeed or
fail. -/
namespace GitCrypt
open Iostream Posix
variable {env : Env}

/-! ### Commands on one key -/

/-- The paths of the working tree that are touched or checked out. -/
def Event.paths : Event → List Bytes
  | .called (.utimes path) _ => [path]
  | .ran (.gitCheckout paths) _ => paths
  | _ => []

def Event.IsFor (attributes : Attributes) (keyName : Option Bytes) (event : Event) : Prop :=
  ∀ path ∈ event.paths, attributes.filter path = attributeName keyName

/-- The variables outside of the sections of a key, with their values. -/
def otherConfig (keyName : Option Bytes) (config : List (Bytes × Bytes)) : List (Bytes × Bytes) :=
  config.filter (configSection ·.1 ∉ filterSections keyName)

/-- Nothing has changed since but what belongs to the key. -/
structure ChangesOnlyKey (attributes : Attributes) (gitDir : Location) (keyName : Option Bytes) (r₀ : Repo)
    (s : Repo × List Event) : Prop where
  tree : r₀.fs.ChangesOnly (· = keyLocation gitDir keyName) s.1.fs
  config : otherConfig keyName s.1.config = otherConfig keyName r₀.config
  events : ∀ event ∈ s.2, event.IsFor attributes keyName

private theorem otherConfig_setConfig {keyName : Option Bytes} {name : Bytes}
    (h : configSection name ∈ filterSections keyName)
    (config : List (Bytes × Bytes)) (value : Bytes) :
    otherConfig keyName (setConfig config name value) = otherConfig keyName config := by
  unfold otherConfig setConfig
  rw [List.filter_cons_of_neg (by simpa using h), List.filter_filter]
  refine List.filter_congr fun p _ => ?_
  by_cases hp : p.1 = name
  · simp [hp, h]
  · simp [hp]

private theorem otherConfig_removeSection {keyName : Option Bytes} {name : Bytes} (h : name ∈ filterSections keyName)
    (config : List (Bytes × Bytes)) :
    otherConfig keyName (removeSection config name) = otherConfig keyName config := by
  unfold otherConfig removeSection
  rw [List.filter_filter]
  refine List.filter_congr fun p _ => ?_
  by_cases hp : configSection p.1 = name
  · simp [hp, h]
  · simp [hp]

section
variable {attributes : Attributes} {gitDir : Location} {keyName : Option Bytes} {r₀ : Repo}

theorem ChangesOnlyKey.refl : ChangesOnlyKey attributes gitDir keyName r₀ (r₀, []) :=
  ⟨.refl _ _, rfl, by simp⟩

theorem ChangesOnlyKey.tree_next {s : Repo × List Event} (h : ChangesOnlyKey attributes gitDir keyName r₀ s)
    {fs : FileSystem} (hfs : s.1.fs.ChangesOnly (· = keyLocation gitDir keyName) fs) :
    ChangesOnlyKey attributes gitDir keyName r₀ ({ s.1 with fs }, s.2) :=
  ⟨h.tree.trans hfs, h.config, h.events⟩

theorem ChangesOnlyKey.config_next {s : Repo × List Event} (h : ChangesOnlyKey attributes gitDir keyName r₀ s)
    {config : List (Bytes × Bytes)} (hc : otherConfig keyName config = otherConfig keyName s.1.config) :
    ChangesOnlyKey attributes gitDir keyName r₀ ({ s.1 with config }, s.2) :=
  ⟨h.tree, hc.trans h.config, h.events⟩

theorem ChangesOnlyKey.event_next {s : Repo × List Event} (h : ChangesOnlyKey attributes gitDir keyName r₀ s)
    {event : Event} (he : event.IsFor attributes keyName) :
    ChangesOnlyKey attributes gitDir keyName r₀ (s.1, s.2 ++ [event]) := by
  refine ⟨h.tree, h.config, fun event' hmem => ?_⟩
  rcases List.mem_append.mp hmem with hmem | hmem
  · exact h.events event' hmem
  · rw [List.mem_singleton.mp hmem]
    exact he

variable (hloc : Located env gitDir r₀)
include hloc

/-- The path of the key leads to its place in every state. -/
theorem ChangesOnlyKey.resolve_eq (hn : LegalKeyName keyName) {s : Repo × List Event}
    (h : ChangesOnlyKey attributes gitDir keyName r₀ s) {loc : Location}
    (hr : s.1.fs.resolve env.cwd (internalKeyPath env keyName) = .ok loc) : loc = keyLocation gitDir keyName :=
  hloc.leadsOnlyTo hn.isName s.1.fs loc h.tree.dirs hr

theorem installKeyFile_preserves (hn : LegalKeyName keyName) (keyFile : KeyFile) :
    Preserves (ChangesOnlyKey attributes gitDir keyName r₀)
      (installKeyFile env keyFile (internalKeyPath env keyName)) := by
  refine .bind (mkdirParent_preserves (fun s dir fs hs hm => ?_) _) fun _ =>
    .bind (storeToFile_preserves (fun s edit fs hs hw => ?_) keyFile) fun ok => ?_
  · exact hs.tree_next (FileSystem.mkdir_changesOnly hm _)
  · obtain ⟨loc, bytes, hr, hc, -⟩ := FileSystem.writeFile_changesOnly hw
    exact hs.tree_next (hs.resolve_eq hloc hn hr ▸ hc)
  · exact .ite (fun _ => .pure _) fun _ => .bind ((logLines_quiet _).preserves _) fun _ => .pure _

private theorem removeFile_changesOnlyKey (hn : LegalKeyName keyName) :
    Preserves (ChangesOnlyKey attributes gitDir keyName r₀) (removeFile env (internalKeyPath env keyName)) := by
  refine removeFile_preserves fun s fs hs hu => ?_
  obtain ⟨loc, hr, hc, -⟩ := FileSystem.unlink_changesOnly hu
  exact hs.tree_next (hs.resolve_eq hloc hn hr ▸ hc)

omit hloc

theorem gitConfig_preserves {name : Bytes} (h : configSection name ∈ filterSections keyName) (value : Bytes) :
    Preserves (ChangesOnlyKey attributes gitDir keyName r₀) (gitConfig env name value) :=
  .bind (execCommand_preserves (fun _ => rfl) fun _ hw => hw.config_next (otherConfig_setConfig h _ value))
    fun _ => (requireSuccess_quiet _ _).preserves _

theorem gitDeconfig_preserves {name : Bytes} (h : name ∈ filterSections keyName) :
    Preserves (ChangesOnlyKey attributes gitDir keyName r₀) (gitDeconfig env name) := by
  refine .bind (execCommand_preserves (fun _ => rfl) fun w hw => ?_) fun _ => (requireSuccess_quiet _ _).preserves _
  simp only [Command.run]
  split_ifs
  · exact hw.config_next (otherConfig_removeSection h _)
  · exact hw

theorem configureGitFilters_preserves :
    Preserves (ChangesOnlyKey attributes gitDir keyName r₀) (configureGitFilters env keyName) := by
  rw [configureGitFilters_eq]
  exact .forM fun p hp => gitConfig_preserves (configSection_mem (List.mem_map_of_mem hp)) _

theorem deconfigureGitFilters_preserves :
    Preserves (ChangesOnlyKey attributes gitDir keyName r₀) (deconfigureGitFilters env keyName) := by
  have hdiff : Preserves (ChangesOnlyKey attributes gitDir keyName r₀) (do
      if ← gitHasConfig env (str "diff." ++ attributeName keyName ++ str ".textconv") then
        gitDeconfig env (str "diff." ++ attributeName keyName)) :=
    .bind ((gitHasConfig_quiet _).preserves _) fun _ =>
      .ite (fun _ => gitDeconfig_preserves (by simp [filterSections])) fun _ => .pure _
  refine .bind ((gitHasAnyConfig_quiet _).preserves _) fun _ => .ite (fun _ => ?_) fun _ => hdiff
  exact .bind (gitDeconfig_preserves (by simp [filterSections])) fun _ => hdiff


/-! ### The commands -/

variable (h : Answers env attributes)
include h

/-- Files that were found with the filter of the key. -/
def AllOf (attributes : Attributes) (keyName : Option Bytes) (files : List Bytes) : Prop :=
  ∀ path ∈ files, attributes.filter path = attributeName keyName

theorem getEncryptedFiles_allOf (I : Repo × List Event → Prop) :
    Triple (fun w : World => I w.seen) (getEncryptedFiles env keyName)
      (fun files w => I w.seen ∧ AllOf attributes keyName files) fun _ w => I w.seen := by
  have hfiles : Returns (fun _ => True) (getEncryptedFiles env keyName) fun files _ =>
      AllOf attributes keyName files := by
    refine .of_start fun r _ => ((getEncryptedFiles_lists h keyName (env.lsFiles r.fs)).start rfl).post ?_
    intro files _ hfiles path hmem
    rw [hfiles] at hmem
    exact of_decide_eq_true (List.mem_filter.mp hmem).2
  exact (((getEncryptedFiles_quiet _).preserves I).conj hfiles).weaken (fun _ hw => ⟨hw, trivial⟩)
    (fun _ _ => id) fun _ _ he => he.1

omit h

theorem getInternalKeyPath_preserves (I : Repo × List Event → Prop) (keyName : Option Bytes) :
    Triple (fun w : World => I w.seen) (getInternalKeyPath env keyName)
      (fun path w => I w.seen ∧ path = internalKeyPath env keyName) fun _ w => I w.seen :=
  (((getInternalKeyPath_quiet _).preserves I).conj (getInternalKeyPath_returns (fun _ => True) keyName)).weaken
    (fun _ hw => ⟨hw, trivial⟩) (fun _ _ hw => ⟨hw.1, hw.2.2⟩) fun _ _ he => he.1

theorem checkOutFiles_preserves {files : List Bytes} (hfiles : AllOf attributes keyName files) (failure : List Bytes) :
    Preserves (ChangesOnlyKey attributes gitDir keyName r₀) (checkOutFiles env files failure) := by
  refine .bind (.forM fun path hmem => touchFile_preserves fun s ok hs => hs.event_next ?_) fun _ =>
    .bind (gitCheckout_preserves fun s batch status hsub hs => hs.event_next ?_) fun _ => ?_
  · intro path' hpath
    rw [List.mem_singleton.mp hpath]
    exact hfiles path hmem
  · exact fun path hmem => hfiles path (hsub hmem)
  · exact .ite (fun _ => .pure _) fun _ => (leave_quiet _ _).preserves _

include h hloc

theorem installKeyFiles_preserves (hn : LegalKeyName keyName) {keyFiles : List KeyFile}
    (hkeys : ∀ keyFile ∈ keyFiles, keyFile.getKeyName = keyName) :
    Triple (fun w : World => ChangesOnlyKey attributes gitDir keyName r₀ w.seen) (installKeyFiles env keyFiles)
      (fun files w => ChangesOnlyKey attributes gitDir keyName r₀ w.seen ∧
        ∀ paths, files = some paths → AllOf attributes keyName paths)
      fun _ w => ChangesOnlyKey attributes gitDir keyName r₀ w.seen := by
  induction keyFiles with
  | nil => exact .pure fun w hw => ⟨hw, fun paths he => by cases he; simp [AllOf]⟩
  | cons keyFile keyFiles ih =>
    obtain ⟨rfl, hrest⟩ := List.forall_mem_cons.mp hkeys
    refine .bind (getInternalKeyPath_preserves _ _) fun path => .assuming ?_
    rintro rfl
    refine .bind (installKeyFile_preserves hloc hn keyFile) fun ok =>
      .ite (fun _ => .pure fun w hw => ⟨hw, by simp⟩) fun _ => ?_
    refine .bind configureGitFilters_preserves fun _ => .bind (getEncryptedFiles_allOf h _) fun files =>
      .assuming fun hfiles => .bind (ih hrest) fun rest => ?_
    split
    · exact .pure fun w hw => ⟨hw.1, by simp⟩
    · rename_i rest
      refine .pure fun w hw => ⟨hw.1, fun paths he => ?_⟩
      cases he
      exact fun path hmem => (List.mem_append.mp hmem).elim (hfiles path) (hw.2 rest rfl path)

theorem lockKey_preserves (hn : LegalKeyName keyName) :
    Triple (fun w : World => ChangesOnlyKey attributes gitDir keyName r₀ w.seen)
      (lockKey env keyName (internalKeyPath env keyName))
      (fun files w => ChangesOnlyKey attributes gitDir keyName r₀ w.seen ∧ AllOf attributes keyName files)
      fun _ w => ChangesOnlyKey attributes gitDir keyName r₀ w.seen :=
  .bind (removeFile_changesOnlyKey hloc hn) fun _ => .bind deconfigureGitFilters_preserves fun _ =>
    getEncryptedFiles_allOf h _

theorem lockGivenKey_preserves (hn : LegalKeyName keyName) :
    Triple (fun w : World => ChangesOnlyKey attributes gitDir keyName r₀ w.seen) (lockGivenKey env keyName)
      (fun files w => ChangesOnlyKey attributes gitDir keyName r₀ w.seen ∧
        ∀ paths, files = some paths → AllOf attributes keyName paths)
      fun _ w => ChangesOnlyKey attributes gitDir keyName r₀ w.seen := by
  refine .bind (getInternalKeyPath_preserves _ _) fun path => .assuming ?_
  rintro rfl
  refine .bind ((access_quiet _).preserves _) fun res => ?_
  split
  · exact .bind ((logLines_quiet _).preserves _) fun _ => .pure fun w hw => ⟨hw, by simp⟩
  · exact .bind (lockKey_preserves hloc h hn) fun files => .pure fun w hw =>
      ⟨hw.1, fun paths he => by cases he; exact hw.2⟩

/-- The key files that `unlock` reads have this name, whatever has been logged before. -/
def KeyFilesNamed (env : Env) (repo : Repo) (args : List Bytes) (keyName : Option Bytes) : Prop :=
  ∀ (clog : List Bytes) (statusOutput : IStream) (w₁ w₂ : World) (keyFiles : List KeyFile),
    getGitStatus env { repo.start env with clog } = (.ok statusOutput, w₁) →
    unlockKeyFiles env args w₁ = (.ok (some keyFiles), w₂) →
    ∀ keyFile ∈ keyFiles, keyFile.getKeyName = keyName

theorem unlock_preserves (hn : LegalKeyName keyName) {args : List Bytes}
    (hnamed : KeyFilesNamed env r₀ args keyName) (clog : List Bytes) :
    Triple (· = { r₀.start env with clog }) (unlock env args)
      (fun _ w => ChangesOnlyKey attributes gitDir keyName r₀ w.seen)
      fun _ w => ChangesOnlyKey attributes gitDir keyName r₀ w.seen := by
  have hstart : ChangesOnlyKey attributes gitDir keyName r₀ (World.seen { r₀.start env with clog }) := .refl
  refine .bind ((Triple.of_run (getGitStatus env) _).weakenError fun e w hrun =>
    getGitStatus_quiet.seen_eq hrun ▸ hstart) fun statusOutput => .of_start fun w₁ hstatus => ?_
  have h₁ : ChangesOnlyKey attributes gitDir keyName r₀ w₁.seen := getGitStatus_quiet.seen_eq hstatus ▸ hstart
  refine .ite (fun _ => ((leave_quiet _ _).preserves _).pre fun w he => he ▸ h₁) fun _ => ?_
  refine .bind ((Triple.of_run (unlockKeyFiles env args) w₁).weakenError fun e w hrun =>
    (unlockKeyFiles_quiet args).seen_eq hrun ▸ h₁) fun loaded => .of_start fun w₂ hread => ?_
  have h₂ : ChangesOnlyKey attributes gitDir keyName r₀ w₂.seen := (unlockKeyFiles_quiet args).seen_eq hread ▸ h₁
  split
  · exact .pure fun w he => he ▸ h₂
  · rename_i keyFiles
    have hkeys := hnamed clog statusOutput w₁ w₂ keyFiles hstatus hread
    refine .bind ((installKeyFiles_preserves hloc h hn hkeys).pre fun w he => he ▸ h₂) fun files => ?_
    split
    · exact .pure fun w hw => hw.1
    · exact .assuming fun hfiles => checkOutFiles_preserves (hfiles _ rfl) _

omit h

theorem initKey_preserves (hn : LegalKeyName keyName) :
    Preserves (ChangesOnlyKey attributes gitDir keyName r₀) (initKey env keyName) := by
  refine Triple.bind (getInternalKeyPath_preserves _ _) fun path => .assuming ?_
  rintro rfl
  refine Maintains.bind ((access_quiet _).preserves _) fun res => ?_
  split
  · exact (leave_quiet _ _).preserves _
  · refine .bind ((logLines_quiet _).preserves _) fun _ => .bind ((generateKey_quiet _).preserves _) fun keyFile => ?_
    exact .bind (installKeyFile_preserves hloc hn keyFile) fun ok => .ite (fun _ => .pure _) fun _ =>
      .bind configureGitFilters_preserves fun _ => .pure _

include h

/-- The arguments of a command name one key: its options do, or the key files it is given. -/
def ActsOn (env : Env) (keyName : Option Bytes) (repo : Repo) : Invocation → Prop
  | .init args => ∀ given rest,
      parseOptions (keyNameOptions fun value _ => some value) (none : Option Bytes) args = .ok (given, rest) →
      if given = none ∧ rest.length = 1 then KeyFilesNamed env repo args keyName else given = keyName
  | .unlock args => KeyFilesNamed env repo args keyName
  | .lock args => ∀ vars rest, parseOptions lockOptions {} args = .ok (vars, rest) →
      vars.keyName = keyName ∧ vars.allKeys = false

theorem init_preserves (hn : LegalKeyName keyName) {args : List Bytes} (hon : ActsOn env keyName r₀ (.init args)) :
    Triple (· = r₀.start env) (init env args) (fun _ w => ChangesOnlyKey attributes gitDir keyName r₀ w.seen)
      fun _ w => ChangesOnlyKey attributes gitDir keyName r₀ w.seen := by
  have hstart : ChangesOnlyKey attributes gitDir keyName r₀ (r₀.start env).seen := .refl
  unfold init
  split
  · exact .throw fun w he => he ▸ hstart
  · rename_i given rest hparse
    have hgiven := hon given rest hparse
    refine .ite (fun hold => ?_) fun hnew => ?_
    · rw [if_pos hold] at hgiven
      refine .bind ((Triple.of_run (logLines _) _).weakenError fun e w hrun => ?_)
        fun _ => .of_start fun w hrun => ?_
      · cases hrun
      · cases hrun
        exact unlock_preserves hloc h hn hgiven _
    · rw [if_neg hnew] at hgiven
      subst hgiven
      refine .ite (fun _ => ((leave_quiet _ _).preserves _).pre fun w he => he ▸ hstart) fun _ => ?_
      refine Triple.pre ?_ fun w he => show ChangesOnlyKey attributes gitDir given r₀ w.seen from he ▸ hstart
      cases given with
      | none => exact initKey_preserves hloc hn
      | some name =>
        exact .bind ((validateKeyNameOrThrow_quiet name).preserves _) fun _ => initKey_preserves hloc hn

theorem lock_preserves (hn : LegalKeyName keyName) {args : List Bytes} (hon : ActsOn env keyName r₀ (.lock args)) :
    Preserves (ChangesOnlyKey attributes gitDir keyName r₀) (lock env args) := by
  unfold lock
  split
  · exact .throw _
  · rename_i vars rest hparse
    obtain ⟨hname, hall⟩ := hon vars rest hparse
    have hleave (status : Nat) (lines : List Bytes) :
        Preserves (ChangesOnlyKey attributes gitDir keyName r₀) (leave status lines) :=
      (leave_quiet _ _).preserves _
    refine .ite (fun _ => hleave _ _) fun _ => .ite (fun _ => hleave _ _) fun _ => ?_
    refine .bind (getGitStatus_quiet.preserves _) fun _ => .ite (fun _ => hleave _ _) fun _ => ?_
    rw [lockSelected, if_neg (by simp [hall]), hname]
    refine Triple.bind (lockGivenKey_preserves hloc h hn) fun files => ?_
    split
    · exact .pure fun w hw => hw.1
    · exact .assuming fun hfiles => checkOutFiles_preserves (hfiles _ rfl) _

theorem invocation_preserves (hn : LegalKeyName keyName) {invocation : Invocation}
    (hon : ActsOn env keyName r₀ invocation) :
    ChangesOnlyKey attributes gitDir keyName r₀ (invocation.run env (r₀.start env)).2.seen := by
  have hstart : ChangesOnlyKey attributes gitDir keyName r₀ (r₀.start env).seen := .refl
  have hrun : Triple (· = r₀.start env) (invocation.run env)
      (fun _ w => ChangesOnlyKey attributes gitDir keyName r₀ w.seen)
      fun _ w => ChangesOnlyKey attributes gitDir keyName r₀ w.seen := by
    cases invocation with
    | init args => exact init_preserves hloc h hn hon
    | unlock args => exact unlock_preserves hloc h hn hon []
    | lock args => exact (lock_preserves hloc h hn hon).pre fun w he => he ▸ hstart
  have hend := hrun _ rfl
  rcases hr : invocation.run env (r₀.start env) with ⟨e | status, w⟩ <;> rw [hr] at hend
  · exact hend
  · exact hend

end

/-! ### Sequences of commands -/

/-- A repository, and what the processes run in it have done: for each one the attributes
that git had for the paths and the events. -/
structure History where
  repo : Repo
  processes : List (Attributes × List Event)

/-- One more process runs a command on the key, whatever comes of it. -/
def ActsNext (gitDir : Location) (keyName : Option Bytes) (h h' : History) : Prop :=
  ∃ env attributes invocation, Located env gitDir h.repo ∧ Answers env attributes ∧
    ActsOn env keyName h.repo invocation ∧
    h' = ⟨(invocation.run env (h.repo.start env)).2.toRepo,
      h.processes ++ [(attributes, (invocation.run env (h.repo.start env)).2.trace)]⟩

/-- The key file and the configuration of a name are as they were, no file outside of the git
directory is different, and no path with the filter of the name was touched or checked out. -/
structure Untouched (gitDir : Location) (keyName : Option Bytes) (repo : Repo) (h : History) : Prop where
  keyFile : ∀ bytes, h.repo.fs.find (keyLocation gitDir keyName) = some (.file bytes) ↔
    repo.fs.find (keyLocation gitDir keyName) = some (.file bytes)
  config : h.repo.config.filter (configSection ·.1 ∈ filterSections keyName) =
    repo.config.filter (configSection ·.1 ∈ filterSections keyName)
  contents : ∀ loc, ¬ gitDir <:+ loc → ∀ bytes, h.repo.fs.find loc = some (.file bytes) ↔
    repo.fs.find loc = some (.file bytes)
  files : ∀ p ∈ h.processes, ∀ path, p.1.filter path = attributeName keyName → ∀ event ∈ p.2, path ∉ event.paths

theorem Untouched.refl (gitDir : Location) (keyName : Option Bytes) (repo : Repo) :
    Untouched gitDir keyName repo ⟨repo, []⟩ :=
  ⟨fun _ => Iff.rfl, rfl, fun _ _ _ => Iff.rfl, by simp⟩

/-- What is outside of the sections of a key includes the sections of any other. -/
theorem filter_sections_otherConfig {a b : Option Bytes} (hne : b ≠ a) (config : List (Bytes × Bytes)) :
    (otherConfig a config).filter (configSection ·.1 ∈ filterSections b) =
      config.filter (configSection ·.1 ∈ filterSections b) := by
  rw [otherConfig, List.filter_filter]
  refine List.filter_congr fun p _ => ?_
  by_cases hp : configSection p.1 ∈ filterSections b
  · simp [hp, filterSections_disjoint hne hp]
  · simp [hp]

/-- Events that are not seen have no paths. -/
theorem Event.paths_of_not_visible {event : Event} (h : event.visible = false) : event.paths = [] := by
  unfold Event.visible at h
  unfold Event.paths
  split at h
  · cases h
  · cases h
  · rfl
  · rfl
  · split
    · simp_all
    · simp_all
    · rfl

theorem Untouched.next {gitDir : Location} {a b : Option Bytes} (ha : LegalKeyName a) (hb : LegalKeyName b)
    (hne : b ≠ a) {repo : Repo} {h h' : History} (hu : Untouched gitDir b repo h) (hstep : ActsNext gitDir a h h') :
    Untouched gitDir b repo h' := by
  obtain ⟨env, attributes, invocation, hloc, hanswers, hon, rfl⟩ := hstep
  have hc := invocation_preserves hloc hanswers ha hon
  constructor
  · exact fun bytes => (hc.tree.files _ (keyLocation_ne ha hb hne) bytes).trans (hu.keyFile bytes)
  · have hconfig := congrArg (List.filter (configSection ·.1 ∈ filterSections b)) hc.config
    rw [filter_sections_otherConfig hne, filter_sections_otherConfig hne] at hconfig
    exact hconfig.trans hu.config
  · refine fun loc hout bytes => (hc.tree.files loc ?_ bytes).trans (hu.contents loc hout bytes)
    rintro rfl
    exact hout ⟨[a.getD (str "default"), str "keys", str "git-crypt"], rfl⟩
  · intro p hp path hpath event hevent hmem
    rcases List.mem_append.mp hp with hp | hp
    · exact hu.files p hp path hpath event hevent hmem
    · rw [List.mem_singleton] at hp
      subst hp
      have hvisible : event.visible = true := by
        by_contra hv
        rw [Event.paths_of_not_visible (by simpa using hv)] at hmem
        cases hmem
      have hfor := hc.events event (List.mem_filter.mpr ⟨hevent, hvisible⟩) path hmem
      exact hne (attributeName_injective (hpath.symm.trans hfor))

/-- Whatever commands run on one key, and whether they succeed or fail, no other key is
touched. -/
theorem keys_isolated {gitDir : Location} {a b : Option Bytes} (ha : LegalKeyName a) (hb : LegalKeyName b)
    (hne : b ≠ a) {repo : Repo} {h : History}
    (hrun : Relation.ReflTransGen (ActsNext gitDir a) ⟨repo, []⟩ h) : Untouched gitDir b repo h := by
  induction hrun with
  | refl => exact .refl gitDir b repo
  | tail _ hstep ih => exact ih.next ha hb hne hstep

/-- The listed file has the filter of another key. -/
def otherAttributes : Attributes where
  filter name := if name = str " secret" then str "git-crypt-b" else str "unspecified"
  diff name := if name = str " secret" then str "git-crypt-b" else str "unspecified"
  filter_isValue name := by split_ifs <;> decide +kernel
  diff_isValue name := by split_ifs <;> decide +kernel

def otherEnv : Env := answeringEnv otherAttributes [spacedFile]

/-- A repository in which the key of that filter is installed. -/
def otherInstalled : Repo :=
  ((Invocation.init [str "-k", str "b"]).run otherEnv (freshRepo.start otherEnv)).2.toRepo

private theorem acts_init (repo : Repo) : ActsOn otherEnv none repo (.init []) := by
  rintro given rest ⟨⟩
  rfl

private theorem acts_lock (repo : Repo) : ActsOn otherEnv none repo (.lock []) := by
  rintro vars rest ⟨⟩
  exact ⟨rfl, rfl⟩

private theorem located_otherInstalled : Located otherEnv [str ".git"] otherInstalled := by
  unfold Located
  decide +kernel

private theorem exists_actsNext {gitDir : Location} {a : Option Bytes} (ha : LegalKeyName a) {env : Env}
    {attributes : Attributes} (hanswers : Answers env attributes) {h : History} (hloc : Located env gitDir h.repo)
    {invocation : Invocation} (hon : ActsOn env a h.repo invocation) :
    ∃ h', ActsNext gitDir a h h' ∧ Located env gitDir h'.repo ∧ h'.processes.length = h.processes.length + 1 :=
  ⟨_, ⟨env, attributes, invocation, hloc, hanswers, hon, rfl⟩,
    hloc.mono (invocation_preserves hloc hanswers ha hon).tree.dirs, by simp⟩

/-- `init` and then `lock`, of the default key, where another one is installed. -/
theorem keys_isolated_installed : ∃ h : History, h.processes.length = 2 ∧
    (otherInstalled.fs.find (keyLocation [str ".git"] (some (str "b")))).isSome = true ∧
    otherInstalled.config.any (configSection ·.1 ∈ filterSections (some (str "b"))) = true ∧
    Untouched [str ".git"] (some (str "b")) otherInstalled h := by
  have hanswers : Answers otherEnv otherAttributes := answers_answeringEnv _ _
  have ha : LegalKeyName none := fun name hname => by cases hname
  have hb : LegalKeyName (some (str "b")) := fun name hname => by cases hname; decide +kernel
  obtain ⟨h₁, hstep₁, hloc₁, hlength₁⟩ :=
    exists_actsNext ha hanswers (h := ⟨otherInstalled, []⟩) located_otherInstalled (acts_init _)
  obtain ⟨h₂, hstep₂, -, hlength₂⟩ := exists_actsNext ha hanswers hloc₁ (acts_lock _)
  refine ⟨h₂, ?_, by decide +kernel, by decide +kernel, keys_isolated ha hb (by decide) (.tail (.single hstep₁) hstep₂)⟩
  rw [hlength₂, hlength₁]
  rfl

end GitCrypt
