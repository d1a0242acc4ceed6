import GitCrypt.ReadOnly

/-! What installing, removing and configuring a key changes when it returns. -/
namespace GitCrypt
open Iostream Posix
variable {α β : Type} {env : Env}

/-- If the program returns, it leads from repositories in `P` to repositories in `Q`. -/
def Returns (P : Repo → Prop) (m : Action α) (Q : α → Repo → Prop) : Prop :=
  Triple (fun w : World => P w.toRepo) m (fun a w => Q a w.toRepo) fun _ _ => True

namespace Returns
variable {P P' : Repo → Prop} {Q Q' : α → Repo → Prop}

theorem pure {a : α} (h : ∀ r, P r → Q a r) : Returns P (Pure.pure a) Q :=
  Triple.pure fun w => h w.toRepo

theorem raise (e : Exception) : Returns P (throw e) Q := Triple.throw fun _ _ => trivial

theorem bind {m : Action α} {f : α → Action β} {Q : β → Repo → Prop} {R : α → Repo → Prop}
    (hm : Returns P m R) (hf : ∀ a, Returns (R a) (f a) Q) : Returns P (m >>= f) Q :=
  Triple.bind hm hf

theorem ite {c : Prop} [Decidable c] {m m' : Action α} (ht : c → Returns P m Q)
    (hf : ¬ c → Returns P m' Q) : Returns P (if c then m else m') Q :=
  Triple.ite ht hf

theorem weaken {m : Action α} (h : Returns P m Q) (hP : ∀ r, P' r → P r)
    (hQ : ∀ a r, Q a r → Q' a r) : Returns P' m Q' :=
  Triple.weaken h (fun w => hP w.toRepo) (fun a w => hQ a w.toRepo) fun _ _ => id

theorem pre {m : Action α} (h : Returns P m Q) (hP : ∀ r, P' r → P r) : Returns P' m Q :=
  h.weaken hP fun _ _ => id

theorem post {m : Action α} (h : Returns P m Q) (hQ : ∀ a r, Q a r → Q' a r) : Returns P m Q' :=
  h.weaken (fun _ => id) hQ

theorem and {m : Action α} (h : Returns P m Q) (h' : Returns P' m Q') :
    Returns (fun r => P r ∧ P' r) m fun a r => Q a r ∧ Q' a r :=
  Triple.and h h'

theorem tryCatch {m : Action α} {handler : Exception → Action α} (hm : Returns P m Q)
    (hh : ∀ e, Returns (fun _ => True) (handler e) Q) : Returns P (MonadExcept.tryCatch m handler) Q :=
  Triple.tryCatch hm hh

theorem forM {l : List α} {f : α → Action PUnit} (h : ∀ a ∈ l, Returns P (f a) fun _ => P) :
    Returns P (ForM.forM l f) fun _ => P :=
  Triple.forM_keeps h

/-- The assertion may fix the repository it starts from. -/
theorem of_start {m : Action α} (h : ∀ r₀, P r₀ → Returns (· = r₀) m Q) : Returns P m Q :=
  fun w hw => h w.toRepo hw w rfl

theorem start {m : Action α} {r₀ : Repo} (h : Returns P m Q) (hr : P r₀) : Returns (· = r₀) m Q :=
  h.pre fun _ he => he ▸ hr

/-- What a run that returned has done. -/
theorem of_run {m : Action α} (h : Returns P m Q) {w w' : World} {a : α} (hw : P w.toRepo)
    (hm : m w = (.ok a, w')) : Q a w'.toRepo :=
  Triple.ok h hw hm

end Returns

theorem ReadsOnly.returns {m : Action α} (h : ReadsOnly m) (P : Repo → Prop) :
    Returns P m fun _ => P :=
  (h.triple P).weakenError fun _ _ _ => trivial

theorem ReadsOnly.andThen {m : Action α} (h : ReadsOnly m) {f : α → Action β} {P : Repo → Prop}
    {Q : β → Repo → Prop} (hf : ∀ a, Returns P (f a) Q) : Returns P (m >>= f) Q :=
  .bind (h.returns P) hf

theorem Quiet.returns {m : Action α} (h : Quiet m) (P : Repo → Prop) : Returns P m fun _ => P :=
  h.readsOnly.returns P

theorem Quiet.andThen {m : Action α} (h : Quiet m) {f : α → Action β} {P : Repo → Prop}
    {Q : β → Repo → Prop} (hf : ∀ a, Returns P (f a) Q) : Returns P (m >>= f) Q :=
  h.readsOnly.andThen hf

theorem execCommand_returns {P : Repo → Prop} {Q : Nat × Bytes → Repo → Prop} {command : Command}
    (hfail : ∀ r, P r → Q (128, []) r)
    (hrun : ∀ w : World, P w.toRepo →
      Q ((command.run env w).1, (command.run env w).2.1) (command.run env w).2.2.toRepo) :
    Returns P (execCommand env command) Q := by
  intro w hw
  unfold execCommand
  dsimp only
  split_ifs
  · exact hfail _ hw
  · exact hrun _ hw

theorem syscall_returns {P : Repo → Prop} {Q : Except Errno α → Repo → Prop}
    {call : FileCall} {effect : FileSystem → Except Errno (α × FileSystem)}
    (hfail : ∀ r, P r → Q (.error .eio) r)
    (herror : ∀ r e, P r → effect r.fs = .error e → Q (.error e) r)
    (hok : ∀ r a fs, P r → effect r.fs = .ok (a, fs) → Q (.ok a) { r with fs }) :
    Returns P (syscall env call effect) Q := by
  intro w hw
  unfold syscall
  dsimp only
  split_ifs
  · exact hfail _ hw
  · split
    · rename_i r a s' hs
      split at hs
      · rename_i e hc
        cases hs
        exact herror _ _ hw hc
      · rename_i b fs hc
        cases hs
        exact hok _ _ _ hw hc
    · trivial

/-- A system call that only edits the tree. -/
theorem syscall_edit_returns {P : Repo → Prop} {Q : Except Errno Unit → Repo → Prop}
    {call : FileCall} {edit : FileSystem → Except Errno FileSystem}
    (hfail : ∀ r, P r → Q (.error .eio) r)
    (herror : ∀ r e, P r → edit r.fs = .error e → Q (.error e) r)
    (hok : ∀ r fs, P r → edit r.fs = .ok fs → Q (.ok ()) { r with fs }) :
    Returns P (syscall env call fun fs => (edit fs).map ((), ·)) Q := by
  refine syscall_returns hfail (fun r e hr hm => ?_) fun r _ fs hr hm => ?_
  · cases he : edit r.fs <;> rw [he] at hm <;> cases hm
    exact herror r _ hr he
  · cases he : edit r.fs <;> rw [he] at hm <;> cases hm
    exact hok r _ hr he

theorem requireSuccess_returns (P : Repo → Prop) (status : Nat) (e : Exception) :
    Returns P (requireSuccess status e) fun _ r => P r ∧ status = 0 := by
  refine .ite (fun h => ?_) fun _ => .raise e
  exact .pure fun _ hr => ⟨hr, of_decide_eq_true h⟩

/-! ### Paths -/

/-- The first line `git rev-parse --git-dir` prints. -/
def gitDirPath (env : Env) : Bytes := ((outputStream env.gitDir).getline 10).1

def internalKeyPath (env : Env) (keyName : Option Bytes) : Bytes :=
  gitDirPath env ++ str "/git-crypt" ++ str "/keys" ++ str "/" ++ keyName.getD (str "default")

theorem getInternalStatePath_returns (P : Repo → Prop) :
    Returns P (getInternalStatePath env) fun path r => P r ∧ path = gitDirPath env ++ str "/git-crypt" := by
  refine .bind (R := fun out r => P r ∧ (out.1 = 0 → out.2 = env.gitDir))
    (execCommand_returns (fun r hr => ⟨hr, by simp⟩) fun w hw => ⟨hw, fun _ => rfl⟩) ?_
  rintro ⟨status, output⟩
  refine .bind (requireSuccess_returns _ _ _) fun _ => .pure ?_
  rintro r ⟨⟨hr, hout⟩, hs⟩
  exact ⟨hr, by rw [gitDirPath, ← hout hs]⟩

theorem getInternalKeysPath_returns (P : Repo → Prop) :
    Returns P (getInternalKeysPath env) fun path r =>
      P r ∧ path = gitDirPath env ++ str "/git-crypt" ++ str "/keys" :=
  .bind (getInternalStatePath_returns P) fun path => .pure fun r ⟨hr, hp⟩ => ⟨hr, by rw [hp]⟩

theorem getInternalKeyPath_returns (P : Repo → Prop) (keyName : Option Bytes) :
    Returns P (getInternalKeyPath env keyName) fun path r => P r ∧ path = internalKeyPath env keyName :=
  .bind (getInternalKeysPath_returns P) fun path => .pure fun r ⟨hr, hp⟩ => ⟨hr, by rw [hp]; rfl⟩

/-! ### The file tree -/

/-- Only the tree differs, and of the files only those at some locations. -/
def TreeFrom (r₀ : Repo) (S : Location → Prop) (r : Repo) : Prop :=
  r₀.fs.ChangesOnly S r.fs ∧ r.config = r₀.config

theorem TreeFrom.refl (r₀ : Repo) (S : Location → Prop) : TreeFrom r₀ S r₀ :=
  ⟨.refl S r₀.fs, rfl⟩

theorem TreeFrom.next {r₀ r : Repo} {S : Location → Prop} (h : TreeFrom r₀ S r) {fs : FileSystem}
    (hfs : r.fs.ChangesOnly S fs) : TreeFrom r₀ S { r with fs } :=
  ⟨h.1.trans hfs, h.2⟩

/-- What making a directory preserves is preserved by making all parents of a path. -/
theorem mkdirParent_returns {I : Repo → Prop}
    (h : ∀ r dir fs, I r → r.fs.mkdir env.cwd dir = .ok fs → I { r with fs }) (path : Bytes) :
    Returns I (mkdirParent env path) fun _ => I := by
  refine .forM fun dir _ => syscall_map_readsOnly.andThen fun res => ?_
  split
  · exact .pure fun _ => id
  · exact .raise _
  · refine .bind (R := fun _ => I)
      (syscall_edit_returns (fun _ => id) (fun _ _ hr _ => hr) fun r => h r dir) fun res => ?_
    split
    · exact .pure fun _ => id
    · exact .raise _
  · exact .raise _

theorem mkdirParent_treeFrom (r₀ : Repo) (S : Location → Prop) (path : Bytes) :
    Returns (TreeFrom r₀ S) (mkdirParent env path) fun _ => TreeFrom r₀ S :=
  mkdirParent_returns (fun _ _ _ hr hm => hr.next (FileSystem.mkdir_changesOnly hm S)) path

/-- The path leads to one location, also when there are more directories. -/
def LeadsOnlyTo (env : Env) (fs₀ : FileSystem) (path : Bytes) (loc : Location) : Prop :=
  ∀ fs loc', fs₀.DirsIn fs → fs.resolve env.cwd path = .ok loc' → loc' = loc

section
variable {r₀ : Repo} {path : Bytes} {loc : Location}

private theorem writeFile_next (hp : LeadsOnlyTo env r₀.fs path loc) {r : Repo}
    (hr : TreeFrom r₀ (· = loc) r) {edit : Bytes → Bytes} {fs : FileSystem}
    (hw : r.fs.writeFile env.cwd path edit = .ok fs) :
    TreeFrom r₀ (· = loc) { r with fs } ∧ ∃ bytes, fs.find loc = some (.file bytes) := by
  obtain ⟨loc', bytes, hres, hc, hf⟩ := FileSystem.writeFile_changesOnly hw
  obtain rfl := hp _ _ hr.1.dirs hres
  exact ⟨hr.next hc, bytes, hf⟩

theorem writeContents_returns (hp : LeadsOnlyTo env r₀.fs path loc) (data : Bytes) :
    Returns (TreeFrom r₀ (· = loc)) (writeContents env path data) fun ok r =>
      TreeFrom r₀ (· = loc) r ∧ (ok = true → ∃ bytes, r.fs.find loc = some (.file bytes)) := by
  intro w hw
  unfold writeContents
  dsimp only
  split
  · rename_i hs
    split at hs
    · rename_i fs hwrite
      cases hs
      obtain ⟨ht, hf⟩ := writeFile_next hp hw hwrite
      exact ⟨ht, fun _ => hf⟩
    · cases hs
      exact ⟨hw, by simp⟩
  · trivial

/-- A key file that is stored is there. -/
theorem storeToFile_returns (hp : LeadsOnlyTo env r₀.fs path loc) (keyFile : KeyFile) :
    Returns (TreeFrom r₀ (· = loc)) (storeToFile env keyFile path) fun ok r =>
      TreeFrom r₀ (· = loc) r ∧ (ok = true → ∃ bytes, r.fs.find loc = some (.file bytes)) := by
  have hwrite (edit : Bytes → Bytes) : Returns (TreeFrom r₀ (· = loc))
      (syscall env (.create path) fun fs => (fs.writeFile env.cwd path edit).map ((), ·))
      fun _ => TreeFrom r₀ (· = loc) :=
    syscall_edit_returns (fun _ => id) (fun _ _ hr _ => hr) fun _ _ hr hw => (writeFile_next hp hr hw).1
  refine .bind (R := fun _ => TreeFrom r₀ (· = loc)) (.bind (hwrite id) fun res => ?_) fun _ =>
    .bind (hwrite _) fun res => ?_
  · split
    · exact .pure fun _ => id
    · exact .raise _
  · split
    · exact .pure fun _ hr => ⟨hr, by simp⟩
    · exact writeContents_returns hp _

end

/-- What has been stored reads back. -/
theorem storeToFile_contents (keyFile : KeyFile) (path : Bytes) :
    Returns (fun _ => True) (storeToFile env keyFile path) fun ok r =>
      ok = true → r.fs.readFile env.cwd path = .ok keyFile.store := by
  refine .bind (R := fun _ _ => True) (fun w _ => ?_) fun _ =>
    .bind (R := fun res r => res = .ok () → r.fs.readFile env.cwd path = .ok []) ?_ fun res => ?_
  · split <;> trivial
  · refine syscall_edit_returns (by simp) (by simp) fun r fs _ hw _ => ?_
    obtain ⟨_, hread, -⟩ := FileSystem.readFile_of_writeFile hw
    exact hread
  · split
    · exact .pure (by simp)
    · intro w hw
      unfold writeContents
      dsimp only
      split
      · rename_i hs
        split at hs <;> cases hs
        · rename_i fs hwrite
          intro hok
          obtain ⟨bytes, hread, hbytes⟩ := FileSystem.readFile_of_writeFile hwrite
          rw [hbytes [] (hw rfl)] at hread
          simpa [show env.fails w.ops = false by simpa using hok] using hread
        · simp
      · trivial

/-- `remove_file` takes away what the path leads to. -/
theorem removeFile_returns (r₀ : Repo) (path : Bytes) :
    Returns (· = r₀) (removeFile env path) fun _ r =>
      TreeFrom r₀ (fun loc => r₀.fs.resolve env.cwd path = .ok loc) r ∧
        ∀ loc, r₀.fs.resolve env.cwd path = .ok loc → r.fs.find loc = none := by
  let S loc := r₀.fs.resolve env.cwd path = .ok loc
  refine .bind (R := fun res r => TreeFrom r₀ S r ∧ (res = .ok () ∨ res = .error .enoent →
    ∀ loc, S loc → r.fs.find loc = none)) (syscall_edit_returns ?_ ?_ ?_) fun res => ?_
  · rintro r rfl
    exact ⟨.refl r S, by simp⟩
  · rintro r e rfl hu
    refine ⟨.refl r S, fun he loc hl => ?_⟩
    rw [or_iff_right (by simp)] at he
    cases he
    exact FileSystem.unlink_enoent hu hl
  · rintro r fs rfl hu
    obtain ⟨loc, hl, hc, hn⟩ := FileSystem.unlink_changesOnly hu
    have hS (loc' : Location) (h' : S loc') : loc' = loc := Except.ok.inj (h'.symm.trans hl)
    refine ⟨⟨⟨hc.dirs, fun loc' hn' => hc.files loc' fun he => hn' (he ▸ hl)⟩, rfl⟩, fun _ loc' h' => ?_⟩
    rw [hS loc' h', hn]
  · split
    · exact .pure fun r hr => ⟨hr.1, hr.2 (.inl rfl)⟩
    · exact .pure fun r hr => ⟨hr.1, hr.2 (.inr rfl)⟩
    · exact .raise _

/-- Bytes that are read come from a file, unless the path leads to a directory. -/
theorem readFile_returns (P : Repo → Prop) (path : Bytes) :
    Returns P (readFile env path) fun contents r => P r ∧ ∀ bytes, contents = some bytes →
      bytes = [] ∨ ∃ loc, r.fs.resolve env.cwd path = .ok loc ∧ r.fs.find loc = some (.file bytes) := by
  refine .bind (R := fun res r => P r ∧ ∀ bytes, res = .ok bytes →
    bytes = [] ∨ ∃ loc, r.fs.resolve env.cwd path = .ok loc ∧ r.fs.find loc = some (.file bytes))
    (syscall_returns (fun r hr => ⟨hr, by simp⟩) (fun r e hr _ => ⟨hr, by simp⟩) ?_) fun res => .pure ?_
  · intro r bytes fs hr hm
    split at hm <;> cases hm
    · rename_i hread
      exact ⟨hr, fun bytes' he => .inr (FileSystem.readFile_ok.mp (by cases he; exact hread))⟩
    · exact ⟨hr, fun bytes' he => .inl (by cases he; rfl)⟩
  · rintro r ⟨hr, hbytes⟩
    refine ⟨hr, fun bytes he => hbytes bytes ?_⟩
    cases res <;> simp_all [Except.toOption]

/-- What a directory contains has names. -/
theorem getDirectoryContents_returns (P : Repo → Prop) (path : Bytes) :
    Returns P (getDirectoryContents env path) fun names r => P r ∧ ∀ name ∈ names, IsName name := by
  refine .bind (R := fun _ r => P r) (syscall_returns (fun r hr => hr) (fun r e hr _ => hr) ?_) fun res => ?_
  · intro r _ fs hr hm
    cases hd : r.fs.readdir env.cwd path <;> rw [hd] at hm <;> cases hm
    exact hr
  split
  · exact .raise _
  refine .bind (R := fun res r => P r ∧ ∀ names, res = .ok names → ∀ name ∈ names, IsName name)
    (syscall_returns (fun r hr => ⟨hr, by simp⟩) (fun r e hr _ => ⟨hr, by simp⟩) ?_) fun res => ?_
  · intro r names fs hr hm
    cases hd : r.fs.readdir env.cwd path <;> rw [hd] at hm <;> cases hm
    refine ⟨hr, fun names' he name hname => ?_⟩
    cases he
    obtain ⟨loc, -, rfl⟩ := FileSystem.readdir_ok hd
    exact r.fs.named name loc (FileSystem.mem_children.mp hname)
  · split
    · exact .pure fun r ⟨hr, hnames⟩ => ⟨hr, fun name hname => hnames _ rfl name (List.mem_mergeSort.mp hname)⟩
    · exact .raise _

/-! ### The configuration -/

theorem getConfig_setConfig (config : List (Bytes × Bytes)) (name value v : Bytes) :
    getConfig (setConfig config name value) v = if v = name then some value else getConfig config v := by
  unfold getConfig setConfig
  by_cases h : v = name
  · simp [h]
  · rw [List.find?_cons_of_neg (by simpa using Ne.symm h), List.find?_filter, if_neg h]
    congr 2
    funext p
    by_cases hp : p.1 = v
    · simp [hp, h]
    · simp [hp]

theorem getConfig_removeSection (config : List (Bytes × Bytes)) (name v : Bytes) :
    getConfig (removeSection config name) v =
      if configSection v = name then none else getConfig config v := by
  unfold getConfig removeSection
  rw [List.find?_filter]
  split_ifs with h
  · rw [List.find?_eq_none.mpr, Option.map_none]
    intro p _
    by_cases hp : p.1 = v
    · simp [hp, h]
    · simp [hp]
  · congr 2
    funext p
    by_cases hp : p.1 = v
    · simp [hp, h]
    · simp [hp]

/-- The section of a variable whose last part has no dot. -/
theorem configSection_append (a : Bytes) {b : Bytes} (hb : b.head? = some 46)
    (h : (46 : UInt8) ∉ b.tail) : configSection (a ++ b) = a := by
  obtain ⟨b, rfl⟩ := List.head?_eq_some_iff.mp hb
  rw [List.tail_cons] at h
  unfold configSection
  rw [List.reverse_append, List.reverse_cons, List.append_assoc, List.dropWhile_append_of_pos]
  · simp
  · intro c hc
    simp only [ne_eq, decide_eq_true_eq]
    rintro rfl
    exact h (List.mem_reverse.mp hc)

/-- The two sections that belong to a key. -/
def filterSections (keyName : Option Bytes) : List Bytes :=
  [str "filter." ++ attributeName keyName, str "diff." ++ attributeName keyName]

/-- The variables of a key. -/
def filterVariables (keyName : Option Bytes) : List Bytes :=
  [str "filter." ++ attributeName keyName ++ str ".smudge",
    str "filter." ++ attributeName keyName ++ str ".clean",
    str "filter." ++ attributeName keyName ++ str ".required",
    str "diff." ++ attributeName keyName ++ str ".textconv"]

theorem configSection_mem {keyName : Option Bytes} {v : Bytes} (h : v ∈ filterVariables keyName) :
    configSection v ∈ filterSections keyName := by
  simp only [filterVariables, List.mem_cons, List.not_mem_nil, or_false] at h
  rcases h with rfl | rfl | rfl | rfl
  all_goals
    rw [configSection_append _ rfl (by decide)]
    simp [filterSections]

theorem attributeName_injective : Function.Injective attributeName := by
  intro a b h
  cases a with
  | none =>
    cases b with
    | none => rfl
    | some b => simpa [attributeName, str] using congrArg List.length h
  | some a =>
    cases b with
    | none => simpa [attributeName, str] using congrArg List.length h
    | some b => rw [List.append_cancel_left h]

/-- The sections of different keys are different. -/
theorem filterSections_disjoint {a b : Option Bytes} (h : a ≠ b) {name : Bytes}
    (ha : name ∈ filterSections a) : name ∉ filterSections b := by
  have hne (c d : Bytes) : str "filter." ++ c ≠ str "diff." ++ d := by
    intro he
    have hc : (some 102 : Option UInt8) = some 100 := congrArg List.head? he
    exact absurd hc (by decide)
  intro hb
  simp only [filterSections, List.mem_cons, List.not_mem_nil, or_false] at ha hb
  rcases ha with rfl | rfl <;> rcases hb with hb | hb
  · exact h (attributeName_injective (List.append_cancel_left hb))
  · exact hne _ _ hb
  · exact hne _ _ hb.symm
  · exact h (attributeName_injective (List.append_cancel_left hb))

/-- Only variables in the sections of the key differ. -/
def ConfigFrom (r₀ : Repo) (keyName : Option Bytes) (r : Repo) : Prop :=
  r.fs = r₀.fs ∧ ∀ v, configSection v ∉ filterSections keyName → getConfig r.config v = getConfig r₀.config v

theorem ConfigFrom.refl (r₀ : Repo) (keyName : Option Bytes) : ConfigFrom r₀ keyName r₀ :=
  ⟨rfl, fun _ _ => rfl⟩

theorem ConfigFrom.removeSection {r₀ r : Repo} {keyName : Option Bytes} (h : ConfigFrom r₀ keyName r)
    {name : Bytes} (hn : name ∈ filterSections keyName) :
    ConfigFrom r₀ keyName { r with config := removeSection r.config name } := by
  refine ⟨h.1, fun v hv => ?_⟩
  have hne : configSection v ≠ name := by
    rintro rfl
    exact hv hn
  rw [getConfig_removeSection, if_neg hne, h.2 v hv]

theorem gitConfig_returns (Q : Repo → Prop) (name value : Bytes) :
    Returns (fun r => Q { r with config := setConfig r.config name value }) (gitConfig env name value)
      fun _ => Q := by
  refine .bind (R := fun out r => out.1 = 0 → Q r) (execCommand_returns (by simp) fun w hw _ => hw) ?_
  rintro ⟨status, output⟩
  exact (requireSuccess_returns _ _ _).post fun _ r hr => hr.1 hr.2

theorem gitDeconfig_returns (Q : Repo → Prop) (name : Bytes) :
    Returns (fun r => Q { r with config := removeSection r.config name }) (gitDeconfig env name)
      fun _ => Q := by
  refine .bind (R := fun out r => out.1 = 0 → Q r) (execCommand_returns (by simp) fun w hw => ?_) ?_
  · simp only [Command.run]
    split_ifs
    · exact fun _ => hw
    · simp
  · rintro ⟨status, output⟩
    exact (requireSuccess_returns _ _ _).post fun _ r hr => hr.1 hr.2

theorem gitHasConfig_returns (P : Repo → Prop) (name : Bytes) :
    Returns P (gitHasConfig env name) fun found r =>
      P r ∧ (found = false → getConfig r.config name = none) := by
  refine .bind (R := fun out r => P r ∧ (out.1 = 1 → getConfig r.config name = none))
    (execCommand_returns (fun r hr => ⟨hr, by simp⟩) fun w hw => ?_) ?_
  · simp only [Command.run]
    split
    · rename_i h
      exact ⟨hw, fun _ => h⟩
    · exact ⟨hw, by simp⟩
  · rintro ⟨status, output⟩
    rcases status with _ | _ | status
    · exact .pure fun r hr => ⟨hr.1, by simp⟩
    · exact .pure fun r hr => ⟨hr.1, fun _ => hr.2 rfl⟩
    · exact .raise _

theorem gitHasAnyConfig_returns (P : Repo → Prop) (names : List Bytes) :
    Returns P (gitHasAnyConfig env names) fun found r =>
      P r ∧ (found = false → ∀ v ∈ names, getConfig r.config v = none) := by
  induction names generalizing P with
  | nil => exact .pure fun r hr => ⟨hr, by simp⟩
  | cons name names ih =>
    refine .bind (gitHasConfig_returns P name) fun found => .ite (fun _ => ?_) fun hfound => ?_
    · exact .pure fun r hr => ⟨hr.1, by simp⟩
    · refine (ih _).post fun found' r hr => ⟨hr.1.1, fun hf v hv => ?_⟩
      rcases List.mem_cons.mp hv with rfl | hv
      · exact hr.1.2 (Bool.eq_false_iff.mpr hfound)
      · exact hr.2 hf v hv

/-- The argument with the key name that a filter gets. -/
def keyNameArgs (keyName : Option Bytes) : List Bytes :=
  keyName.toList.map fun name => str "--key-name=" ++ name

/-- The command git runs for a filter of a key. -/
def filterCommand (env : Env) (keyName : Option Bytes) (filter : Bytes) : Bytes :=
  escapeShellArg env.exePath ++ (filter :: keyNameArgs keyName).flatMap (32 :: ·)

/-- The variables of a key with their values. -/
def filterSettings (env : Env) (keyName : Option Bytes) : List (Bytes × Bytes) :=
  [(str "filter." ++ attributeName keyName ++ str ".smudge", filterCommand env keyName (str "smudge")),
    (str "filter." ++ attributeName keyName ++ str ".clean", filterCommand env keyName (str "clean")),
    (str "filter." ++ attributeName keyName ++ str ".required", str "true"),
    (str "diff." ++ attributeName keyName ++ str ".textconv", filterCommand env keyName (str "diff"))]

theorem map_filterSettings (env : Env) (keyName : Option Bytes) :
    (filterSettings env keyName).map (·.1) = filterVariables keyName := rfl

/-- The variables differ in their last letters. -/
private theorem nodup_filterVariables (keyName : Option Bytes) : (filterVariables keyName).Nodup := by
  apply List.Nodup.of_map List.getLast?
  simp only [filterVariables, List.map_cons, List.map_nil, List.getLast?_append]
  exact (by decide : [some (101 : UInt8), some 110, some 100, some 118].Nodup)

private theorem filterCommand_none (env : Env) (filter : Bytes) :
    filterCommand env none filter = escapeShellArg env.exePath ++ 32 :: filter := by
  simp [filterCommand, keyNameArgs]

private theorem filterCommand_some (env : Env) (name filter : Bytes) :
    filterCommand env (some name) filter =
      escapeShellArg env.exePath ++ (32 :: filter ++ 32 :: str "--key-name=") ++ name := by
  simp [filterCommand, keyNameArgs]

/-- `configure_git_filters` sets the variables one after the other, with names and values
put together alike for all keys. -/
theorem configureGitFilters_eq (env : Env) (keyName : Option Bytes) :
    configureGitFilters env keyName = forM (filterSettings env keyName) fun p => gitConfig env p.1 p.2 := by
  simp only [filterSettings, List.forM_cons, List.forM_nil, Prog.bind_pure_unit]
  cases keyName with
  | none =>
    simp only [filterCommand_none]
    rfl
  | some name =>
    simp only [filterCommand_some]
    rfl

/-- Settings of different variables all stand, and the other variables stay. -/
private theorem gitConfigs_returns (r₀ : Repo) (settings : List (Bytes × Bytes))
    (hnodup : (settings.map (·.1)).Nodup) :
    Returns (· = r₀) (forM settings fun p => gitConfig env p.1 p.2) fun _ r =>
      r.fs = r₀.fs ∧ (∀ p ∈ settings, getConfig r.config p.1 = some p.2) ∧
        ∀ v ∉ settings.map (·.1), getConfig r.config v = getConfig r₀.config v := by
  induction settings generalizing r₀ with
  | nil => exact .pure fun r hr => by simp [hr]
  | cons p settings ih =>
    rw [List.map_cons, List.nodup_cons] at hnodup
    let r₁ : Repo := { r₀ with config := setConfig r₀.config p.1 p.2 }
    refine .bind (R := fun _ r => r = r₁) ((gitConfig_returns (· = r₁) _ _).pre fun r hr => by rw [hr])
      fun _ => (ih r₁ hnodup.2).post ?_
    rintro _ r ⟨hfs, hset, hother⟩
    refine ⟨hfs, List.forall_mem_cons.mpr ⟨?_, hset⟩, fun v hv => ?_⟩
    · rw [hother p.1 hnodup.1, getConfig_setConfig, if_pos rfl]
    · rw [List.map_cons, List.mem_cons, not_or] at hv
      rw [hother v hv.2, getConfig_setConfig, if_neg hv.1]

/-- All variables of the key are set, and no others are touched. -/
theorem configureGitFilters_returns (r₀ : Repo) (keyName : Option Bytes) :
    Returns (· = r₀) (configureGitFilters env keyName) fun _ r =>
      ConfigFrom r₀ keyName r ∧ ∀ p ∈ filterSettings env keyName, getConfig r.config p.1 = some p.2 := by
  rw [configureGitFilters_eq]
  refine (gitConfigs_returns r₀ (filterSettings env keyName) (nodup_filterVariables keyName)).post ?_
  exact fun _ r ⟨hfs, hset, hother⟩ =>
    ⟨⟨hfs, fun v hv => hother v fun hmem => hv (configSection_mem hmem)⟩, hset⟩

/-- No variable of the key is left, and no others are touched. -/
theorem deconfigureGitFilters_returns (r₀ : Repo) (keyName : Option Bytes) :
    Returns (· = r₀) (deconfigureGitFilters env keyName) fun _ r =>
      ConfigFrom r₀ keyName r ∧ ∀ v ∈ filterVariables keyName, getConfig r.config v = none := by
  let A (vars : List Bytes) (r : Repo) : Prop :=
    ConfigFrom r₀ keyName r ∧ ∀ v ∈ vars, getConfig r.config v = none
  have hremove (vars vars' : List Bytes) {name : Bytes} (hn : name ∈ filterSections keyName)
      (hv : ∀ v ∈ vars', v ∈ vars ∨ configSection v = name) :
      Returns (A vars) (gitDeconfig env name) fun _ => A vars' := by
    refine (gitDeconfig_returns (A vars') name).pre fun r hr => ?_
    refine ⟨hr.1.removeSection hn, fun v hmem => ?_⟩
    rw [getConfig_removeSection]
    rcases hv v hmem with h | h
    · rw [hr.2 v h, ite_self]
    · rw [if_pos h]
  refine .bind (R := fun found r => A [] r ∧ (found = false → ∀ v ∈ (filterVariables keyName).take 3,
    getConfig r.config v = none)) ?_ fun found => ?_
  · refine (gitHasAnyConfig_returns (· = r₀) _).post ?_
    rintro found r ⟨rfl, hr⟩
    exact ⟨⟨.refl r keyName, by simp⟩, hr⟩
  have hdiff : Returns (A ((filterVariables keyName).take 3)) (do
      if ← gitHasConfig env (str "diff." ++ attributeName keyName ++ str ".textconv") then
        gitDeconfig env (str "diff." ++ attributeName keyName)) fun _ => A (filterVariables keyName) := by
    refine .bind (gitHasConfig_returns _ _) fun found => .ite (fun _ => ?_) fun hfound => .pure ?_
    · refine (hremove _ _ (by simp [filterSections]) fun v hv => ?_).pre fun r hr => hr.1
      rw [← List.take_append_drop 3 (filterVariables keyName), List.mem_append] at hv
      refine hv.imp id fun hv => ?_
      rw [List.mem_singleton.mp hv]
      exact configSection_append _ rfl (by decide)
    · rintro r ⟨hr, hnone⟩
      refine ⟨hr.1, fun v hv => ?_⟩
      rw [← List.take_append_drop 3 (filterVariables keyName), List.mem_append] at hv
      rcases hv with hv | hv
      · exact hr.2 v hv
      · rw [List.mem_singleton.mp hv]
        exact hnone (Bool.eq_false_iff.mpr hfound)
  refine .ite (fun _ => .bind ?_ fun _ => hdiff) fun hfound => ?_
  · refine (hremove [] _ (by simp [filterSections]) fun v hv => .inr ?_).pre fun r hr => hr.1
    simp only [filterVariables, List.take_succ_cons, List.take_zero, List.mem_cons, List.not_mem_nil,
      or_false] at hv
    rcases hv with rfl | rfl | rfl <;> exact configSection_append _ rfl (by decide)
  · exact hdiff.pre fun r hr => ⟨hr.1.1, hr.2 (Bool.eq_false_iff.mpr hfound)⟩

end GitCrypt
