import Mathlib.Data.List.AList
import Mathlib.Order.Basic

/-! A POSIX file tree without links: files and directories at locations, path names
resolved against a working directory, and the system calls as partial functions of the
tree. Permissions and times are left out. -/
namespace Posix

/-- The components from the root to a node, the innermost one first. -/
abbrev Location := List (List UInt8)

inductive Node where
  | file (contents : List UInt8)
  | dir
  deriving DecidableEq, Repr

/-- The error numbers a program tells apart; `eio` stands for every other one. -/
inductive Errno where
  | enoent
  | enotdir
  | eisdir
  | eexist
  | eio
  deriving DecidableEq, Repr

def dot : List UInt8 := [46]
def dotDot : List UInt8 := [46, 46]

/-- A component that names an entry of its directory. -/
def IsName (c : List UInt8) : Prop := c ≠ [] ∧ c ≠ dot ∧ c ≠ dotDot ∧ (47 : UInt8) ∉ c

instance : DecidablePred IsName := fun _ => inferInstanceAs (Decidable (_ ∧ _ ∧ _ ∧ _))

/-- A file tree: every node but the root lies in a directory, under a name. -/
structure FileSystem where
  nodes : AList fun _ : Location => Node
  root : nodes.lookup [] = some .dir
  closed : ∀ name loc, (nodes.lookup (name :: loc)).isSome = true → nodes.lookup loc = some .dir
  named : ∀ name loc, (nodes.lookup (name :: loc)).isSome = true → IsName name

namespace FileSystem

def find (fs : FileSystem) (loc : Location) : Option Node := fs.nodes.lookup loc

@[ext] theorem ext {fs fs' : FileSystem} (h : fs.nodes = fs'.nodes) : fs = fs' := by
  cases fs; cases fs'; simp_all

/-- The directory of any node is there. -/
theorem find_parent {fs : FileSystem} {name : List UInt8} {loc : Location} {node : Node}
    (h : fs.find (name :: loc) = some node) : fs.find loc = some .dir :=
  fs.closed name loc (by rw [show fs.nodes.lookup (name :: loc) = some node from h]; rfl)

private theorem ne_child (name : List UInt8) (loc : Location) : loc ≠ name :: loc := by
  intro h
  simpa using congrArg List.length h

/-- Whatever is below a location, the location is a directory. -/
theorem find_of_below {fs : FileSystem} (above : Location) {loc : Location} (h : above ≠ [])
    (hf : (fs.find (above ++ loc)).isSome = true) : fs.find loc = some .dir := by
  induction above with
  | nil => exact absurd rfl h
  | cons name above ih =>
    have hd := fs.closed name (above ++ loc) hf
    by_cases ha : above = []
    · rwa [ha] at hd
    · refine ih ha ?_
      rw [find, hd]
      rfl

/-- Put a node where none is, or in place of a file. -/
def addNode (fs : FileSystem) (name : List UInt8) (loc : Location) (node : Node) (hw : IsName name)
    (hp : fs.find loc = some .dir) (hn : fs.find (name :: loc) ≠ some .dir) : FileSystem where
  nodes := fs.nodes.insert (name :: loc) node
  root := by rw [AList.lookup_insert_ne (by simp), fs.root]
  closed name' loc' h := by
    by_cases he : name' :: loc' = name :: loc
    · obtain ⟨-, rfl⟩ := List.cons.inj he
      rwa [AList.lookup_insert_ne (ne_child name loc')]
    · rw [AList.lookup_insert_ne he] at h
      have hd := fs.closed name' loc' h
      rwa [AList.lookup_insert_ne]
      rintro rfl
      exact hn hd
  named name' loc' h := by
    by_cases he : name' :: loc' = name :: loc
    · obtain ⟨rfl, -⟩ := List.cons.inj he
      exact hw
    · rw [AList.lookup_insert_ne he] at h
      exact fs.named name' loc' h

/-- Take away a file. -/
def eraseFile (fs : FileSystem) (name : List UInt8) (loc : Location)
    (hn : fs.find (name :: loc) ≠ some .dir) : FileSystem where
  nodes := fs.nodes.erase (name :: loc)
  root := by rw [AList.lookup_erase_ne (by simp), fs.root]
  closed name' loc' h := by
    have hne : name' :: loc' ≠ name :: loc := by
      intro he
      rw [he, AList.lookup_erase] at h
      cases h
    rw [AList.lookup_erase_ne hne] at h
    have hd := fs.closed name' loc' h
    rwa [AList.lookup_erase_ne]
    rintro rfl
    exact hn hd
  named name' loc' h := by
    by_cases he : name' :: loc' = name :: loc
    · rw [he, AList.lookup_erase] at h
      cases h
    · rw [AList.lookup_erase_ne he] at h
      exact fs.named name' loc' h

/-- The tree with only a root. -/
def empty : FileSystem where
  nodes := (∅ : AList fun _ : Location => Node).insert [] .dir
  root := AList.lookup_insert _
  closed name loc h := by
    rw [AList.lookup_insert_ne (by simp), AList.lookup_empty] at h
    cases h
  named name loc h := by
    rw [AList.lookup_insert_ne (by simp), AList.lookup_empty] at h
    cases h

/-- The trees differ at most at one location. -/
def Differs (fs fs' : FileSystem) (loc : Location) (node : Option Node) : Prop :=
  ∀ loc', fs'.find loc' = if loc' = loc then node else fs.find loc'

theorem addNode_differs (fs : FileSystem) {name : List UInt8} {loc : Location} (node : Node)
    (hw : IsName name) (hp : fs.find loc = some .dir) (hn : fs.find (name :: loc) ≠ some .dir) :
    fs.Differs (fs.addNode name loc node hw hp hn) (name :: loc) (some node) := by
  intro loc'
  split_ifs with h
  · rw [h]
    exact AList.lookup_insert _
  · exact AList.lookup_insert_ne h

theorem eraseFile_differs (fs : FileSystem) {name : List UInt8} {loc : Location}
    (hn : fs.find (name :: loc) ≠ some .dir) :
    fs.Differs (fs.eraseFile name loc hn) (name :: loc) none := by
  intro loc'
  split_ifs with h
  · rw [h]
    exact AList.lookup_erase _ _
  · exact AList.lookup_erase_ne h

/-- The bytes at a location, none where no file is. -/
def contents (fs : FileSystem) (loc : Location) : List UInt8 :=
  match fs.find loc with
  | some (.file bytes) => bytes
  | _ => []

/-- The names in a directory. -/
def children (fs : FileSystem) (loc : Location) : List (List UInt8) :=
  fs.nodes.keys.filterMap fun l =>
    match l with
    | name :: parent => if parent = loc then some name else none
    | [] => none

theorem mem_children {fs : FileSystem} {name : List UInt8} {loc : Location} :
    name ∈ fs.children loc ↔ (fs.find (name :: loc)).isSome = true := by
  rw [children, List.mem_filterMap, find, AList.lookup_isSome, AList.mem_keys]
  constructor
  · rintro ⟨l, hl, h⟩
    match l, h with
    | name' :: parent, h =>
      simp only [Option.ite_none_right_eq_some, Option.some.injEq] at h
      obtain ⟨rfl, rfl⟩ := h
      exact hl
  · intro h
    exact ⟨name :: loc, h, by simp⟩

end FileSystem

/-- A path name cut at its slashes. -/
def components : List UInt8 → List (List UInt8)
  | [] => [[]]
  | c :: rest =>
    if c = 47 then [] :: components rest
    else match components rest with
      | [] => [[c]]
      | word :: words => (c :: word) :: words

theorem components_ne_nil (path : List UInt8) : components path ≠ [] := by
  cases path with
  | nil => simp [components]
  | cons c rest =>
    rw [components]
    split_ifs
    · simp
    · split <;> simp

theorem components_append_slash (a b : List UInt8) :
    components (a ++ 47 :: b) = components a ++ components b := by
  induction a with
  | nil => simp [components]
  | cons c a ih =>
    rw [List.cons_append, components, components, ih]
    by_cases hc : c = 47
    · simp [hc]
    · rw [if_neg hc, if_neg hc]
      obtain ⟨word, words, hw⟩ := List.exists_cons_of_ne_nil (components_ne_nil a)
      simp [hw]

theorem noSlash_of_mem_components {path c : List UInt8} (h : c ∈ components path) :
    (47 : UInt8) ∉ c := by
  induction path generalizing c with
  | nil => simp_all [components]
  | cons b rest ih =>
    rw [components] at h
    split_ifs at h with hb
    · rcases List.mem_cons.mp h with rfl | h
      · simp
      · exact ih h
    · split at h
      · rw [List.mem_singleton.mp h]
        simpa using Ne.symm hb
      · rename_i word words hw
        rcases List.mem_cons.mp h with rfl | h
        · rw [List.mem_cons, not_or]
          exact ⟨Ne.symm hb, ih (by simp [hw])⟩
        · exact ih (by simp [hw, h])

theorem components_of_noSlash {a : List UInt8} (h : (47 : UInt8) ∉ a) : components a = [a] := by
  induction a with
  | nil => rfl
  | cons c a ih =>
    rw [List.mem_cons, not_or] at h
    rw [components, if_neg (Ne.symm h.1), ih h.2]

/-- One component of a path from a directory. -/
def enter (loc : Location) (c : List UInt8) : Location :=
  if c = [] ∨ c = dot then loc else if c = dotDot then loc.tail else c :: loc

theorem enter_of_isName {c : List UInt8} (h : IsName c) (loc : Location) : enter loc c = c :: loc := by
  simp [enter, h.1, h.2.1, h.2.2.1]

namespace FileSystem

/-- Each component is looked up in what must be a directory. -/
def walk (fs : FileSystem) : Location → List (List UInt8) → Except Errno Location
  | loc, [] => .ok loc
  | loc, c :: rest =>
    match fs.find loc with
    | some .dir => walk fs (enter loc c) rest
    | some (.file _) => .error .enotdir
    | none => .error .enoent

def resolve (fs : FileSystem) (cwd : Location) (path : List UInt8) : Except Errno Location :=
  if path = [] then .error .enoent
  else fs.walk (if path.head? = some 47 then [] else cwd) (components path)

theorem walk_append (fs : FileSystem) (loc : Location) (a b : List (List UInt8)) :
    fs.walk loc (a ++ b) = match fs.walk loc a with
      | .ok loc' => fs.walk loc' b
      | .error e => .error e := by
  induction a generalizing loc with
  | nil => rfl
  | cons c a ih =>
    rw [List.cons_append, walk, walk]
    split
    · exact ih _
    · rfl
    · rfl

theorem walk_cons_isName {fs : FileSystem} {loc : Location} {c : List UInt8} (hc : IsName c)
    (hd : fs.find loc = some .dir) (cs : List (List UInt8)) :
    fs.walk loc (c :: cs) = fs.walk (c :: loc) cs := by
  rw [walk, hd, enter_of_isName hc]

/-- Names lead down from directory to directory. -/
theorem walk_names {fs : FileSystem} {loc loc' : Location} {cs : List (List UInt8)}
    (h : ∀ c ∈ cs, IsName c) (hw : fs.walk loc cs = .ok loc') : loc' = cs.reverse ++ loc := by
  induction cs generalizing loc with
  | nil => exact (Except.ok.inj hw).symm
  | cons c cs ih =>
    rw [List.forall_mem_cons] at h
    cases hd : fs.find loc with
    | none => simp [walk, hd] at hw
    | some node =>
      cases node with
      | file bytes => simp [walk, hd] at hw
      | dir =>
        rw [walk_cons_isName h.1 hd] at hw
        rw [ih h.2 hw, List.reverse_cons, List.append_assoc, List.singleton_append]

theorem walk_of_find {fs : FileSystem} {loc : Location} {cs : List (List UInt8)}
    (h : ∀ c ∈ cs, IsName c) (hf : (fs.find (cs.reverse ++ loc)).isSome = true) :
    fs.walk loc cs = .ok (cs.reverse ++ loc) := by
  induction cs generalizing loc with
  | nil => rfl
  | cons c cs ih =>
    rw [List.forall_mem_cons] at h
    have hd : fs.find loc = some .dir := find_of_below _ (by simp) hf
    rw [List.reverse_cons, List.append_assoc, List.singleton_append] at hf ⊢
    rw [walk_cons_isName h.1 hd, ih h.2 hf]

/-- A path continued below a path that resolves. -/
theorem resolve_append {fs : FileSystem} {cwd loc : Location} {a b : List UInt8}
    (h : fs.resolve cwd a = .ok loc) :
    fs.resolve cwd (a ++ 47 :: b) = fs.walk loc (components b) := by
  unfold resolve at h ⊢
  by_cases ha : a = []
  · simp [ha] at h
  · rw [if_neg ha] at h
    rw [if_neg (by simp), components_append_slash, walk_append, List.head?_append_of_ne_nil _ ha, h]

/-- A path that ends in a slash leads to a directory. -/
theorem find_of_resolve_slash {fs : FileSystem} {cwd loc : Location} {path : List UInt8}
    (h : fs.resolve cwd (path ++ [47]) = .ok loc) : fs.find loc = some .dir := by
  rw [resolve, if_neg (by simp), components_append_slash, walk_append] at h
  split at h
  · rename_i loc' _
    rw [components, walk] at h
    split at h
    · rename_i hd
      rw [walk, enter, if_pos (.inl rfl)] at h
      cases h
      exact hd
    · cases h
    · cases h
  · cases h

/-- A path with components put below it. -/
def below (path : List UInt8) (cs : List (List UInt8)) : List UInt8 := path ++ cs.flatMap (47 :: ·)

private theorem components_below {c : List UInt8} {cs : List (List UInt8)} (hc : (47 : UInt8) ∉ c)
    (hcs : ∀ c ∈ cs, IsName c) : components (below c cs) = c :: cs := by
  induction cs generalizing c with
  | nil => rw [below, List.flatMap_nil, List.append_nil, components_of_noSlash hc]
  | cons d cs ih =>
    rw [List.forall_mem_cons] at hcs
    rw [below, List.flatMap_cons, List.cons_append, components_append_slash, components_of_noSlash hc,
      ← below, ih hcs.1.2.2.2 hcs.2, List.singleton_append]

/-- Names below a path are walked from where the path leads. -/
theorem resolve_below {fs : FileSystem} {cwd loc : Location} {path : List UInt8} {cs : List (List UInt8)}
    (h : fs.resolve cwd path = .ok loc) (hcs : ∀ c ∈ cs, IsName c) :
    fs.resolve cwd (below path cs) = fs.walk loc cs := by
  cases cs with
  | nil => rw [below, List.flatMap_nil, List.append_nil, h, walk]
  | cons c cs =>
    have ⟨hc, hrest⟩ := List.forall_mem_cons.mp hcs
    rw [below, List.flatMap_cons, List.cons_append, resolve_append h, ← below,
      components_below hc.2.2.2 hrest]

theorem eq_of_resolve_below {fs : FileSystem} {cwd loc loc' : Location} {path : List UInt8}
    {cs : List (List UInt8)} (h : fs.resolve cwd path = .ok loc) (hcs : ∀ c ∈ cs, IsName c)
    (hr : fs.resolve cwd (below path cs) = .ok loc') : loc' = cs.reverse ++ loc :=
  walk_names hcs (by rwa [← resolve_below h hcs])

theorem resolve_below_of_find {fs : FileSystem} {cwd loc : Location} {path : List UInt8}
    {cs : List (List UInt8)} (h : fs.resolve cwd path = .ok loc) (hcs : ∀ c ∈ cs, IsName c)
    (hf : (fs.find (cs.reverse ++ loc)).isSome = true) :
    fs.resolve cwd (below path cs) = .ok (cs.reverse ++ loc) := by
  rw [resolve_below h hcs, walk_of_find hcs hf]

/-- Every directory of one tree is a directory of the other. -/
def DirsIn (fs fs' : FileSystem) : Prop := ∀ loc, fs.find loc = some .dir → fs'.find loc = some .dir

theorem walk_of_dirsIn {fs fs' : FileSystem} (h : fs.DirsIn fs') {loc loc' : Location}
    {cs : List (List UInt8)} (hw : fs.walk loc cs = .ok loc') : fs'.walk loc cs = .ok loc' := by
  induction cs generalizing loc with
  | nil => exact hw
  | cons c cs ih =>
    rw [walk] at hw ⊢
    split at hw
    · rename_i hd
      rw [h _ hd]
      exact ih hw
    · cases hw
    · cases hw

theorem resolve_of_dirsIn {fs fs' : FileSystem} (h : fs.DirsIn fs') {cwd loc : Location}
    {path : List UInt8} (hr : fs.resolve cwd path = .ok loc) : fs'.resolve cwd path = .ok loc := by
  unfold resolve at hr ⊢
  by_cases hp : path = []
  · simp [hp] at hr
  · rw [if_neg hp] at hr ⊢
    exact walk_of_dirsIn h hr

/-- What a component leads to is there or has a name. -/
private theorem enter_exists_or_isName {fs : FileSystem} {loc loc' : Location} {name c : List UInt8}
    (hd : fs.find loc = some .dir) (hc : (47 : UInt8) ∉ c) (h : enter loc c = name :: loc') :
    (fs.find (name :: loc')).isSome = true ∨ IsName name := by
  unfold enter at h
  split_ifs at h with h1 h2
  · exact .inl (by rw [← h, hd]; rfl)
  · refine .inl ?_
    cases loc with
    | nil => simp at h
    | cons a loc =>
      rw [List.tail_cons] at h
      rw [← h, find_parent hd]
      rfl
  · obtain ⟨rfl, -⟩ := List.cons.inj h
    rw [not_or] at h1
    exact .inr ⟨h1.1, h1.2, h2, hc⟩

private theorem walk_exists_or_isName {fs : FileSystem} {loc loc' : Location} {name : List UInt8}
    {cs : List (List UInt8)} (hcs : ∀ c ∈ cs, (47 : UInt8) ∉ c) (hne : cs ≠ [])
    (h : fs.walk loc cs = .ok (name :: loc')) :
    (fs.find (name :: loc')).isSome = true ∨ IsName name := by
  induction cs generalizing loc with
  | nil => exact absurd rfl hne
  | cons c cs ih =>
    rw [walk] at h
    split at h
    · rename_i hd
      by_cases hrest : cs = []
      · subst hrest
        exact enter_exists_or_isName hd (hcs c (by simp)) (by simpa [walk] using h)
      · exact ih (fun c hc => hcs c (by simp [hc])) hrest h
    · cases h
    · cases h

/-- A path leads to a node with a name or to the root. -/
theorem isName_of_resolve {fs : FileSystem} {cwd loc : Location} {path name : List UInt8}
    (h : fs.resolve cwd path = .ok (name :: loc)) : IsName name := by
  unfold resolve at h
  by_cases hp : path = []
  · simp [hp] at h
  · rw [if_neg hp] at h
    rcases walk_exists_or_isName (fun c hc => noSlash_of_mem_components hc) (components_ne_nil path) h
      with hs | hn
    · exact fs.named name loc hs
    · exact hn

theorem components_append (path : List UInt8) {ext : List UInt8} (h : (47 : UInt8) ∉ ext) :
    ∃ cs c, components path = cs ++ [c] ∧ components (path ++ ext) = cs ++ [c ++ ext] := by
  induction path with
  | nil => exact ⟨[], [], rfl, components_of_noSlash h⟩
  | cons b path ih =>
    obtain ⟨cs, c, hpath, hext⟩ := ih
    rw [List.cons_append, components, components, hpath, hext]
    by_cases hb : b = 47
    · rw [if_pos hb, if_pos hb]
      exact ⟨[] :: cs, c, rfl, rfl⟩
    · rw [if_neg hb, if_neg hb]
      cases cs with
      | nil => exact ⟨[], b :: c, rfl, rfl⟩
      | cons word cs => exact ⟨(b :: word) :: cs, c, rfl, rfl⟩

/-- Whatever a path with an extension leads to, its name has the extension. -/
theorem resolve_extension {fs : FileSystem} {cwd loc : Location} {path ext : List UInt8} (hslash : (47 : UInt8) ∉ ext)
    (hlength : 2 < ext.length) (h : fs.resolve cwd (path ++ ext) = .ok loc) :
    ∃ name loc', loc = (name ++ ext) :: loc' := by
  obtain ⟨cs, c, hpath, hext⟩ := components_append path hslash
  have hname : IsName (c ++ ext) := by
    have hmem : c ∈ components path := by simp [hpath]
    have hc : (47 : UInt8) ∉ c := noSlash_of_mem_components hmem
    have hne (other : List UInt8) (hshort : other.length ≤ 2) : c ++ ext ≠ other := by
      intro he
      have hl := congrArg List.length he
      rw [List.length_append] at hl
      omega
    exact ⟨hne [] (by decide), hne dot (by decide), hne dotDot (by decide), by simp [hc, hslash]⟩
  unfold resolve at h
  rw [hext, walk_append] at h
  generalize (if (path ++ ext).head? = some 47 then [] else cwd) = start at h
  split_ifs at h
  split at h
  · rename_i loc' _
    exact ⟨c, loc', walk_names (by simpa using hname) h⟩
  · cases h

/-- `stat`. -/
def stat (fs : FileSystem) (cwd : Location) (path : List UInt8) : Except Errno Node :=
  match fs.resolve cwd path with
  | .error e => .error e
  | .ok loc =>
    match fs.find loc with
    | none => .error .enoent
    | some node => .ok node

/-- `mkdir`. -/
def mkdir (fs : FileSystem) (cwd : Location) (path : List UInt8) : Except Errno FileSystem :=
  match hr : fs.resolve cwd path with
  | .error e => .error e
  | .ok [] => .error .eexist
  | .ok (name :: loc) =>
    if hn : fs.find (name :: loc) = none then
      if hp : fs.find loc = some .dir then
        .ok (fs.addNode name loc .dir (isName_of_resolve hr) hp (by simp [hn]))
      else .error .enotdir
    else .error .eexist

/-- Set the contents of a file, which is made when it is not there. -/
def writeFile (fs : FileSystem) (cwd : Location) (path : List UInt8)
    (edit : List UInt8 → List UInt8) : Except Errno FileSystem :=
  match hr : fs.resolve cwd path with
  | .error e => .error e
  | .ok [] => .error .eisdir
  | .ok (name :: loc) =>
    if hn : fs.find (name :: loc) = some .dir then .error .eisdir
    else if hp : fs.find loc = some .dir then
      .ok (fs.addNode name loc (.file (edit (fs.contents (name :: loc)))) (isName_of_resolve hr) hp hn)
    else .error .enotdir

/-- `unlink`. -/
def unlink (fs : FileSystem) (cwd : Location) (path : List UInt8) : Except Errno FileSystem :=
  match fs.resolve cwd path with
  | .error e => .error e
  | .ok [] => .error .eisdir
  | .ok (name :: loc) =>
    if hn : fs.find (name :: loc) = some .dir then .error .eisdir
    else if fs.find (name :: loc) = none then .error .enoent
    else .ok (fs.eraseFile name loc hn)

def readFile (fs : FileSystem) (cwd : Location) (path : List UInt8) : Except Errno (List UInt8) :=
  match fs.stat cwd path with
  | .error e => .error e
  | .ok .dir => .error .eisdir
  | .ok (.file bytes) => .ok bytes

/-- `opendir` and `readdir`, in no particular order. -/
def readdir (fs : FileSystem) (cwd : Location) (path : List UInt8) : Except Errno (List (List UInt8)) :=
  match fs.resolve cwd path with
  | .error e => .error e
  | .ok loc =>
    match fs.find loc with
    | some .dir => .ok (fs.children loc)
    | some (.file _) => .error .enotdir
    | none => .error .enoent

theorem Differs.at_self {fs fs' : FileSystem} {loc : Location} {node : Option Node}
    (h : fs.Differs fs' loc node) : fs'.find loc = node := by
  rw [h loc, if_pos rfl]

theorem Differs.of_ne {fs fs' : FileSystem} {loc loc' : Location} {node : Option Node}
    (h : fs.Differs fs' loc node) (hne : loc' ≠ loc) : fs'.find loc' = fs.find loc' := by
  rw [h loc', if_neg hne]

theorem Differs.dirsIn {fs fs' : FileSystem} {loc : Location} {node : Option Node}
    (h : fs.Differs fs' loc node) (hd : fs.find loc ≠ some .dir) : fs.DirsIn fs' := by
  intro loc' hdir
  rw [h.of_ne]
  · exact hdir
  · rintro rfl
    exact hd hdir

theorem mkdir_ok {fs fs' : FileSystem} {cwd : Location} {path : List UInt8}
    (h : fs.mkdir cwd path = .ok fs') :
    ∃ name loc, fs.resolve cwd path = .ok (name :: loc) ∧ fs.find (name :: loc) = none ∧
      fs.Differs fs' (name :: loc) (some .dir) := by
  unfold mkdir at h
  split at h
  · cases h
  · cases h
  · rename_i name loc hr
    split_ifs at h with hn hp
    cases h
    exact ⟨name, loc, hr, hn, addNode_differs _ _ _ _ _⟩

theorem writeFile_ok {fs fs' : FileSystem} {cwd : Location} {path : List UInt8}
    {edit : List UInt8 → List UInt8} (h : fs.writeFile cwd path edit = .ok fs') :
    ∃ name loc, fs.resolve cwd path = .ok (name :: loc) ∧ fs.find (name :: loc) ≠ some .dir ∧
      fs.Differs fs' (name :: loc) (some (.file (edit (fs.contents (name :: loc))))) := by
  unfold writeFile at h
  split at h
  · cases h
  · cases h
  · rename_i name loc hr
    split_ifs at h with hn hp
    cases h
    exact ⟨name, loc, hr, hn, addNode_differs _ _ _ _ _⟩

theorem unlink_ok {fs fs' : FileSystem} {cwd : Location} {path : List UInt8}
    (h : fs.unlink cwd path = .ok fs') :
    ∃ name loc bytes, fs.resolve cwd path = .ok (name :: loc) ∧
      fs.find (name :: loc) = some (.file bytes) ∧ fs.Differs fs' (name :: loc) none := by
  unfold unlink at h
  split at h
  · cases h
  · cases h
  · rename_i name loc hr
    split_ifs at h with hn hf
    cases h
    cases hnode : fs.find (name :: loc) with
    | none => exact absurd hnode hf
    | some node =>
      cases node with
      | file bytes => exact ⟨name, loc, bytes, hr, hnode, eraseFile_differs _ _⟩
      | dir => exact absurd hnode hn

/-- `unlink` finds nothing to remove. -/
theorem unlink_enoent {fs : FileSystem} {cwd : Location} {path : List UInt8}
    (h : fs.unlink cwd path = .error .enoent) {loc : Location}
    (hr : fs.resolve cwd path = .ok loc) : fs.find loc = none := by
  unfold unlink at h
  rw [hr] at h
  match loc with
  | [] => cases h
  | name :: loc =>
    by_contra hf
    by_cases hn : fs.find (name :: loc) = some .dir
    · simp [hn] at h
    · simp [hn, hf] at h

theorem stat_ok {fs : FileSystem} {cwd : Location} {path : List UInt8} {node : Node} :
    fs.stat cwd path = .ok node ↔ ∃ loc, fs.resolve cwd path = .ok loc ∧ fs.find loc = some node := by
  unfold stat
  cases hr : fs.resolve cwd path with
  | error e => simp
  | ok loc => cases hf : fs.find loc <;> simp [hf]

private theorem walk_error {fs : FileSystem} {loc : Location} {cs : List (List UInt8)} {e : Errno}
    (h : fs.walk loc cs = .error e) : e = .enoent ∨ e = .enotdir := by
  induction cs generalizing loc with
  | nil => cases h
  | cons c cs ih =>
    rw [walk] at h
    split at h
    · exact ih h
    · exact .inr (Except.error.inj h).symm
    · exact .inl (Except.error.inj h).symm

theorem stat_error {fs : FileSystem} {cwd : Location} {path : List UInt8} {e : Errno}
    (h : fs.stat cwd path = .error e) : e = .enoent ∨ e = .enotdir := by
  unfold stat at h
  split at h
  · rename_i hr
    rw [← Except.error.inj h]
    unfold resolve at hr
    by_cases hp : path = []
    · rw [if_pos hp] at hr
      exact .inl (Except.error.inj hr).symm
    · rw [if_neg hp] at hr
      exact walk_error hr
  · split at h
    · exact .inl (Except.error.inj h).symm
    · cases h

/-- What a path goes through on its way to a node is a directory. -/
theorem stat_prefix {fs : FileSystem} {cwd : Location} {a b : List UInt8} {node : Node} (ha : a ≠ [])
    (h : fs.stat cwd (a ++ 47 :: b) = .ok node) : fs.stat cwd a = .ok .dir := by
  obtain ⟨loc, hr, -⟩ := stat_ok.mp h
  rw [resolve, if_neg (by simp), components_append_slash, walk_append, List.head?_append_of_ne_nil _ ha] at hr
  obtain ⟨c, cs, hb⟩ := List.exists_cons_of_ne_nil (components_ne_nil b)
  rw [stat_ok]
  unfold resolve
  rw [if_neg ha]
  split at hr
  · rename_i loc' hw
    refine ⟨loc', hw, ?_⟩
    rw [hb, walk] at hr
    split at hr
    · assumption
    · cases hr
    · cases hr
  · cases hr

theorem readFile_ok {fs : FileSystem} {cwd : Location} {path : List UInt8} {bytes : List UInt8} :
    fs.readFile cwd path = .ok bytes ↔
      ∃ loc, fs.resolve cwd path = .ok loc ∧ fs.find loc = some (.file bytes) := by
  rw [← stat_ok, readFile]
  split
  · simp_all
  · simp_all
  · simp_all

/-- A file that was written reads as what was made of the bytes it had. -/
theorem readFile_of_writeFile {fs fs' : FileSystem} {cwd : Location} {path : List UInt8}
    {edit : List UInt8 → List UInt8} (h : fs.writeFile cwd path edit = .ok fs') :
    ∃ bytes, fs'.readFile cwd path = .ok (edit bytes) ∧
      ∀ old, fs.readFile cwd path = .ok old → bytes = old := by
  obtain ⟨name, loc, hr, hn, hdiff⟩ := writeFile_ok h
  refine ⟨fs.contents (name :: loc), ?_, fun old hold => ?_⟩
  · rw [readFile_ok]
    exact ⟨name :: loc, resolve_of_dirsIn (hdiff.dirsIn hn) hr, hdiff.at_self⟩
  · obtain ⟨loc', hr', hf⟩ := readFile_ok.mp hold
    rw [hr] at hr'
    cases hr'
    simp [contents, hf]

/-- A file that can be read can be written. -/
theorem writeFile_of_readFile {fs : FileSystem} {cwd : Location} {path bytes : List UInt8}
    (h : fs.readFile cwd path = .ok bytes) (edit : List UInt8 → List UInt8) :
    ∃ fs', fs.writeFile cwd path edit = .ok fs' ∧ fs'.readFile cwd path = .ok (edit bytes) := by
  obtain ⟨loc, hr, hf⟩ := readFile_ok.mp h
  cases hw : fs.writeFile cwd path edit with
  | ok fs' =>
    obtain ⟨bytes', hread, hbytes⟩ := readFile_of_writeFile hw
    exact ⟨fs', rfl, by rw [hread, hbytes bytes h]⟩
  | error e =>
    exfalso
    unfold writeFile at hw
    split at hw
    · rename_i hr'
      rw [hr] at hr'
      cases hr'
    · rename_i hr'
      rw [hr] at hr'
      cases hr'
      rw [show fs.find [] = some .dir from fs.root] at hf
      cases hf
    · rename_i name parent hr'
      rw [hr] at hr'
      cases hr'
      rw [dif_neg (by rw [hf]; simp), dif_pos (find_parent hf)] at hw
      cases hw

/-- Whatever is there stays as it is. -/
def Extends (fs fs' : FileSystem) : Prop :=
  ∀ loc node, fs.find loc = some node → fs'.find loc = some node

theorem Extends.dirsIn {fs fs' : FileSystem} (h : fs.Extends fs') : fs.DirsIn fs' := fun loc => h loc .dir

theorem Extends.refl (fs : FileSystem) : fs.Extends fs := fun _ _ => id

theorem Extends.stat {fs fs' : FileSystem} (h : fs.Extends fs') {cwd : Location} {path : List UInt8} {node : Node}
    (hs : fs.stat cwd path = .ok node) : fs'.stat cwd path = .ok node := by
  obtain ⟨loc, hr, hf⟩ := stat_ok.mp hs
  exact stat_ok.mpr ⟨loc, resolve_of_dirsIn h.dirsIn hr, h loc node hf⟩

theorem Extends.trans {fs fs' fs'' : FileSystem} (h : fs.Extends fs') (h' : fs'.Extends fs'') :
    fs.Extends fs'' :=
  fun loc node hf => h' loc node (h loc node hf)

instance : Preorder FileSystem where
  le := Extends
  le_refl := Extends.refl
  le_trans _ _ _ := Extends.trans

theorem Extends.find_none {fs fs' : FileSystem} (h : fs.Extends fs') {loc : Location}
    (hf : fs'.find loc = none) : fs.find loc = none := by
  cases h₀ : fs.find loc with
  | none => rfl
  | some node => rw [h loc node h₀] at hf; cases hf

theorem Differs.extends {fs fs' : FileSystem} {loc : Location} {node : Option Node}
    (h : fs.Differs fs' loc node) (hn : fs.find loc = none) : fs.Extends fs' := by
  intro loc' node' hf
  rw [h.of_ne]
  · exact hf
  · rintro rfl
    rw [hn] at hf
    cases hf

/-- Nothing is lost but files at some locations: directories stay, and so do files elsewhere. -/
structure ChangesOnly (S : Location → Prop) (fs fs' : FileSystem) : Prop where
  dirs : fs.DirsIn fs'
  files : ∀ loc, ¬ S loc → ∀ bytes, fs'.find loc = some (.file bytes) ↔ fs.find loc = some (.file bytes)

theorem ChangesOnly.refl (S : Location → Prop) (fs : FileSystem) : ChangesOnly S fs fs :=
  ⟨fun _ => id, fun _ _ _ => Iff.rfl⟩

theorem ChangesOnly.trans {S : Location → Prop} {fs fs' fs'' : FileSystem} (h : ChangesOnly S fs fs')
    (h' : ChangesOnly S fs' fs'') : ChangesOnly S fs fs'' :=
  ⟨fun loc hd => h'.dirs loc (h.dirs loc hd),
    fun loc hl bytes => (h'.files loc hl bytes).trans (h.files loc hl bytes)⟩

private theorem ChangesOnly.of_differs {fs fs' : FileSystem} {loc : Location} {node : Option Node}
    (h : fs.Differs fs' loc node) (hd : fs.find loc ≠ some .dir) : ChangesOnly (· = loc) fs fs' :=
  ⟨h.dirsIn hd, fun loc' hl bytes => by rw [h.of_ne hl]⟩

theorem mkdir_changesOnly {fs fs' : FileSystem} {cwd : Location} {path : List UInt8}
    (h : fs.mkdir cwd path = .ok fs') (S : Location → Prop) : ChangesOnly S fs fs' := by
  obtain ⟨name, loc, -, hn, hdiff⟩ := mkdir_ok h
  refine ⟨hdiff.dirsIn (by simp [hn]), fun loc' _ bytes => ?_⟩
  rw [hdiff loc']
  split_ifs with he
  · simp [he, hn]
  · rfl

theorem writeFile_changesOnly {fs fs' : FileSystem} {cwd : Location} {path : List UInt8}
    {edit : List UInt8 → List UInt8} (h : fs.writeFile cwd path edit = .ok fs') :
    ∃ loc bytes, fs.resolve cwd path = .ok loc ∧ ChangesOnly (· = loc) fs fs' ∧
      fs'.find loc = some (.file bytes) := by
  obtain ⟨name, loc, hr, hn, hdiff⟩ := writeFile_ok h
  exact ⟨name :: loc, _, hr, .of_differs hdiff hn, hdiff.at_self⟩

theorem unlink_changesOnly {fs fs' : FileSystem} {cwd : Location} {path : List UInt8}
    (h : fs.unlink cwd path = .ok fs') :
    ∃ loc, fs.resolve cwd path = .ok loc ∧ ChangesOnly (· = loc) fs fs' ∧ fs'.find loc = none := by
  obtain ⟨name, loc, bytes, hr, hn, hdiff⟩ := unlink_ok h
  exact ⟨name :: loc, hr, .of_differs hdiff (by simp [hn]), hdiff.at_self⟩

/-- What is at some locations may be gone; everything else is as it was. -/
def RemovesOnly (S : Location → Prop) (fs fs' : FileSystem) : Prop :=
  ∀ loc, fs'.find loc = fs.find loc ∨ S loc ∧ fs'.find loc = none

/-- The same when nothing is left at these locations. -/
structure Without (S : Location → Prop) (fs fs' : FileSystem) : Prop where
  gone : ∀ loc, S loc → fs'.find loc = none
  kept : ∀ loc, ¬ S loc → fs'.find loc = fs.find loc

section
variable {S T : Location → Prop} {fs fs' fs'' : FileSystem}

theorem RemovesOnly.refl (S : Location → Prop) (fs : FileSystem) : RemovesOnly S fs fs := fun _ => .inl rfl

theorem RemovesOnly.trans (h : RemovesOnly S fs fs') (h' : RemovesOnly S fs' fs'') : RemovesOnly S fs fs'' := by
  intro loc
  rcases h' loc with he | hgone
  · exact he ▸ h loc
  · exact .inr hgone

theorem RemovesOnly.mono (h : RemovesOnly S fs fs') (hST : ∀ loc, S loc → T loc) : RemovesOnly T fs fs' :=
  fun loc => (h loc).imp_right fun hgone => ⟨hST loc hgone.1, hgone.2⟩

/-- What is still there was there. -/
theorem RemovesOnly.find (h : RemovesOnly S fs fs') {loc : Location} {node : Node} (hf : fs'.find loc = some node) :
    fs.find loc = some node := by
  rcases h loc with he | hgone
  · rw [← he, hf]
  · rw [hgone.2] at hf
    cases hf

/-- When there are no directories at the locations, all directories stay. -/
theorem RemovesOnly.dirsIn (h : RemovesOnly S fs fs') (hS : ∀ loc, S loc → fs.find loc ≠ some .dir) : fs.DirsIn fs' := by
  intro loc hd
  rcases h loc with he | hgone
  · rw [he, hd]
  · exact absurd hd (hS loc hgone.1)

theorem Without.removesOnly (h : Without S fs fs') : RemovesOnly S fs fs' := by
  intro loc
  by_cases hloc : S loc
  · exact .inr ⟨hloc, h.gone loc hloc⟩
  · exact .inl (h.kept loc hloc)

/-- What is left does not depend on how it came about. -/
theorem Without.find_eq (h : Without S fs fs') (h' : Without S fs fs'') (loc : Location) : fs''.find loc = fs'.find loc := by
  by_cases hloc : S loc
  · rw [h.gone loc hloc, h'.gone loc hloc]
  · rw [h.kept loc hloc, h'.kept loc hloc]

theorem Without.trans (h : Without S fs fs') (h' : Without T fs' fs'') : Without (fun loc => S loc ∨ T loc) fs fs'' := by
  refine ⟨fun loc hloc => ?_, fun loc hloc => ?_⟩
  · by_cases hT : T loc
    · exact h'.gone loc hT
    · rw [h'.kept loc hT, h.gone loc (hloc.resolve_right hT)]
  · obtain ⟨hS, hT⟩ := not_or.mp hloc
    rw [h'.kept loc hT, h.kept loc hS]

theorem Without.congr (h : Without S fs fs') (hST : ∀ loc, S loc ↔ T loc) : Without T fs fs' :=
  ⟨fun loc hloc => h.gone loc ((hST loc).mpr hloc), fun loc hloc => h.kept loc fun hS => hloc ((hST loc).mp hS)⟩

/-- A file that is unlinked is gone, and so is one that was not there. -/
theorem unlink_without {cwd : Location} {path : List UInt8} {loc : Location} (hr : fs.resolve cwd path = .ok loc)
    (hf : fs.find loc ≠ some .dir) : (∃ fs', fs.unlink cwd path = .ok fs' ∧ Without (· = loc) fs fs') ∨
      fs.unlink cwd path = .error .enoent ∧ Without (· = loc) fs fs := by
  cases hu : fs.unlink cwd path with
  | ok fs' =>
    obtain ⟨name, parent, bytes, hr', -, hdiff⟩ := unlink_ok hu
    obtain rfl : loc = name :: parent := Except.ok.inj (hr.symm.trans hr')
    refine .inl ⟨fs', rfl, ?_, fun loc' hne => hdiff.of_ne hne⟩
    rintro loc' rfl
    exact hdiff.at_self
  | error e =>
    cases loc with
    | nil => exact absurd fs.root hf
    | cons name parent =>
      have hnone : fs.find (name :: parent) = none ∧ e = .enoent := by
        unfold unlink at hu
        rw [hr] at hu
        dsimp only at hu
        rw [dif_neg hf] at hu
        by_cases hnone : fs.find (name :: parent) = none
        · rw [if_pos hnone] at hu
          cases hu
          exact ⟨hnone, rfl⟩
        · rw [if_neg hnone] at hu
          cases hu
      obtain ⟨hnone, rfl⟩ := hnone
      refine .inr ⟨rfl, ?_, fun _ _ => rfl⟩
      rintro loc' rfl
      exact hnone

/-- What a path leads to depends only on what is at each location. -/
theorem stat_congr (h : ∀ loc, fs'.find loc = fs.find loc) (cwd : Location) (path : List UInt8) :
    fs'.stat cwd path = fs.stat cwd path := by
  have hwalk (loc : Location) (cs : List (List UInt8)) : fs'.walk loc cs = fs.walk loc cs := by
    induction cs generalizing loc with
    | nil => rfl
    | cons c cs ih =>
      rw [walk, walk, h loc]
      simp only [ih]
  unfold stat resolve
  simp only [hwalk, h]

end

theorem readdir_ok {fs : FileSystem} {cwd : Location} {path : List UInt8}
    {names : List (List UInt8)} (h : fs.readdir cwd path = .ok names) :
    ∃ loc, fs.resolve cwd path = .ok loc ∧ names = fs.children loc := by
  unfold readdir at h
  split at h
  · cases h
  · rename_i loc hr
    split at h <;> cases h
    exact ⟨loc, hr, rfl⟩

theorem readdir_of_dir {fs : FileSystem} {cwd loc : Location} {path : List UInt8} (hr : fs.resolve cwd path = .ok loc)
    (hd : fs.find loc = some .dir) : fs.readdir cwd path = .ok (fs.children loc) := by
  unfold readdir
  rw [hr]
  dsimp only
  rw [hd]

end FileSystem
end Posix
