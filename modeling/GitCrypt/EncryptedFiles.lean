import Mathlib.Data.List.DropRight
import Mathlib.Data.Nat.Digits.Lemmas
import GitCrypt.Library.Words
import GitCrypt.Effects

/-! What `get_encrypted_files` finds in the listing of `git ls-files -csz`, given what `git
check-attr` says of the files. -/
namespace GitCrypt
open Iostream IStream

/-! ### Modes -/

/-- `%06o` -/
def octal (n : UInt32) : Bytes :=
  let digits := (Nat.digits 8 n.toNat).reverse.map fun d => UInt8.ofNat (48 + d)
  List.replicate (6 - digits.length) 48 ++ digits

theorem octal_digit {n : UInt32} {c : UInt8} (h : c ∈ octal n) : ∃ d < 8, c = UInt8.ofNat (48 + d) := by
  rcases List.mem_append.mp h with h | h
  · exact ⟨0, by decide, List.eq_of_mem_replicate h⟩
  · obtain ⟨d, hd, rfl⟩ := List.mem_map.mp h
    exact ⟨d, Nat.digits_lt_base (by decide) (List.mem_reverse.mp hd), rfl⟩

private theorem foldl_octal (n : UInt32) :
    (octal n).foldl (fun n c => 8 * n + (c.toNat - 48)) 0 = n.toNat := by
  have hzero (k : Nat) : (List.replicate k (48 : UInt8)).foldl (fun n c => 8 * n + (c.toNat - 48)) 0 = 0 := by
    induction k with
    | zero => rfl
    | succ k ih => rw [List.replicate_succ, List.foldl_cons]; exact ih
  have hdigits (ds : List Nat) (h : ∀ d ∈ ds, d < 8) :
      (ds.reverse.map fun d => UInt8.ofNat (48 + d)).foldl (fun n c => 8 * n + (c.toNat - 48)) 0 =
        Nat.ofDigits 8 ds := by
    induction ds with
    | nil => rfl
    | cons d ds ih =>
      rw [List.forall_mem_cons] at h
      have hd : (UInt8.ofNat (48 + d)).toNat - 48 = d :=
        (by decide : ∀ d < 8, (UInt8.ofNat (48 + d)).toNat - 48 = d) d h.1
      rw [List.reverse_cons, List.map_append, List.foldl_append, ih h.2, Nat.ofDigits_cons, List.map_singleton,
        List.foldl_cons, List.foldl_nil, hd, Nat.add_comm]
  rw [octal, List.foldl_append, hzero, hdigits _ fun d hd => Nat.digits_lt_base (by decide) hd,
    Nat.ofDigits_digits]

/-- A mode is read back as it was printed. -/
private theorem strtoul8_octal (n : UInt32) : strtoul8 (octal n) = n.toNat := by
  have hnot (c : UInt8) (hc : c ∈ octal n) :
      isSpace c = false ∧ c ≠ 45 ∧ c ≠ 43 ∧ (48 ≤ c && c ≤ 55) = true := by
    obtain ⟨d, hd, rfl⟩ := octal_digit hc
    exact (by decide : ∀ d < 8, isSpace (UInt8.ofNat (48 + d)) = false ∧ UInt8.ofNat (48 + d) ≠ 45 ∧
      UInt8.ofNat (48 + d) ≠ 43 ∧ (48 ≤ UInt8.ofNat (48 + d) && UInt8.ofNat (48 + d) ≤ 55) = true) d hd
  have hdrop : (octal n).dropWhile isSpace = octal n := by
    rw [List.dropWhile_eq_self_iff]
    intro h
    simp [(hnot _ (List.getElem_mem h)).1]
  have htake : (octal n).takeWhile (fun c => 48 ≤ c && c ≤ 55) = octal n :=
    List.takeWhile_eq_self_iff.mpr fun c hc => (hnot c hc).2.2.2
  have hmin : min n.toNat (2 ^ 64 - 1) = n.toNat := min_eq_left (by have := n.toNat_lt; omega)
  unfold strtoul8
  rw [hdrop]
  dsimp only
  split
  · rename_i h
    exact absurd rfl (hnot 45 (by rw [h]; simp)).2.1
  · rename_i h
    exact absurd rfl (hnot 43 (by rw [h]; simp)).2.2.1
  · rw [htake, foldl_octal, hmin]

/-! ### The listing -/

/-- An entry of the index as `git ls-files -s` prints it. -/
structure IndexEntry where
  mode : UInt32
  objectId : Bytes
  stage : Bytes
  name : Bytes
  objectId_isWord : IsWord objectId
  stage_isWord : IsWord stage
  name_noNul : (0 : UInt8) ∉ name

namespace IndexEntry

/-- `MODE SP OBJECT SP STAGE TAB NAME NUL` -/
def line (e : IndexEntry) : Bytes :=
  octal e.mode ++ 32 :: (e.objectId ++ 32 :: (e.stage ++ 9 :: (e.name ++ [0])))

/-- A regular file, not a symbolic link or a submodule. -/
def isFile (e : IndexEntry) : Bool := e.mode.toNat &&& 0o170000 = 0o100000

end IndexEntry

/-- A name as `std::ws` leaves it. -/
def stripped (name : Bytes) : Bytes := name.dropWhile isSpace

theorem isWord_octal (n : UInt32) : IsWord (octal n) := by
  constructor
  · intro h
    have hlen := congrArg List.length h
    simp only [octal, List.length_append, List.length_replicate, List.length_nil] at hlen
    omega
  · intro c hc
    obtain ⟨d, hd, rfl⟩ := octal_digit hc
    exact (by decide : ∀ d < 8, isSpace (UInt8.ofNat (48 + d)) = false) d hd

theorem isGitFileMode_octal (e : IndexEntry) : isGitFileMode (octal e.mode) = e.isFile := by
  rw [isGitFileMode, strtoul8_octal, IndexEntry.isFile]

private theorem readListingEntry_line (e : IndexEntry) (rest : Bytes) :
    readListingEntry (ofBytes (e.line ++ rest)) = ((octal e.mode, stripped e.name), ofBytes rest) := by
  have hmode := extractWord_word (isWord_octal e.mode) (show isSpace 32 = true from rfl)
    (e.objectId ++ 32 :: (e.stage ++ 9 :: (e.name ++ 0 :: rest)))
  have hobject := extractWord_sep (show isSpace 32 = true from rfl) e.objectId_isWord
    (show isSpace 32 = true from rfl) (e.stage ++ 9 :: (e.name ++ 0 :: rest))
  have hstage := extractWord_sep (show isSpace 32 = true from rfl) e.stage_isWord
    (show isSpace 9 = true from rfl) (e.name ++ 0 :: rest)
  have htab : (0 : UInt8) ∉ 9 :: e.name := by simpa using e.name_noNul
  have hname := skipWs_getline htab (show isSpace 0 = false from rfl) rest
  rw [List.cons_append] at hname
  unfold readListingEntry IndexEntry.line
  simp only [List.append_assoc, List.cons_append, List.nil_append, hmode, hobject, hstage, hname]
  rfl

private theorem readListing_line (e : IndexEntry) (rest : Bytes) :
    readListing (ofBytes (e.line ++ rest)) = (octal e.mode, stripped e.name) :: readListing (ofBytes rest) := by
  have hne : e.line ++ rest ≠ [] := by simp [IndexEntry.line]
  have hpeek : (ofBytes (e.line ++ rest)).peek.1.isSome = true := by
    rw [Option.isSome_iff_ne_none, ne_eq, peek_none_iff rfl]
    exact hne
  have hentry := readListingEntry_line e rest
  rw [readListing, dif_pos hpeek, peek_of_cons rfl hne]
  change (readListingEntry (ofBytes (e.line ++ rest))).1 ::
    readListing (readListingEntry (ofBytes (e.line ++ rest))).2 = _
  rw [hentry]

private theorem readListing_lines (entries : List IndexEntry) :
    readListing (ofBytes (entries.flatMap (·.line))) = entries.map fun e => (octal e.mode, stripped e.name) := by
  induction entries with
  | nil => rw [readListing]; rfl
  | cons e entries ih => rw [List.flatMap_cons, readListing_line, ih, List.map_cons]

/-- The names `get_encrypted_files` asks attributes for. -/
theorem listed_names (entries : List IndexEntry) :
    ((readListing (ofBytes (entries.flatMap (·.line)))).filter (isGitFileMode ·.1)).map (·.2) =
      ((entries.filter (·.isFile)).map (·.name)).map stripped := by
  have hmode : ((isGitFileMode ·.1) ∘ fun e : IndexEntry => (octal e.mode, stripped e.name)) =
      (·.isFile) := by
    funext e
    exact isGitFileMode_octal e
  rw [readListing_lines, List.filter_map, hmode, List.map_map, List.map_map]
  rfl

/-! ### The attributes -/

/-- The value of an attribute, which git takes from a line that it splits at blanks. -/
def IsValue (value : Bytes) : Prop := (0 : UInt8) ∉ value ∧ (10 : UInt8) ∉ value ∧ (32 : UInt8) ∉ value

instance decidableIsValue : DecidablePred IsValue := fun _ => inferInstanceAs (Decidable (_ ∧ _ ∧ _))

/-- The filter and the diff attribute of every path. -/
structure Attributes where
  filter : Bytes → Bytes
  diff : Bytes → Bytes
  filter_isValue : ∀ name, IsValue (filter name)
  diff_isValue : ∀ name, IsValue (diff name)

/-- `PATH NUL ATTRIBUTE NUL VALUE NUL` -/
def attributeTriple (name attr value : Bytes) : Bytes := name ++ 0 :: (attr ++ 0 :: (value ++ [0]))

/-- `PATH: ATTRIBUTE: VALUE` -/
def attributeLine (name attr value : Bytes) : Bytes := name ++ str ": " ++ attr ++ str ": " ++ value

/-- Git answers for every path it is asked about, on the stream with one triple for each
attribute, and otherwise with one line each, in which the path may be quoted. -/
structure Answers (env : Env) (attributes : Attributes) : Prop where
  stream : ∀ name, (0 : UInt8) ∉ name → env.checkAttrReply name =
    attributeTriple name (str "filter") (attributes.filter name) ++
      attributeTriple name (str "diff") (attributes.diff name)
  lines : ∀ name, (0 : UInt8) ∉ name → ∃ shown, (10 : UInt8) ∉ shown ∧ env.checkAttr name =
    attributeLine shown (str "filter") (attributes.filter name) ++
      10 :: (attributeLine shown (str "diff") (attributes.diff name) ++ [10])

/-- The attribute as `get_file_attributes` returns it. -/
def reported (value : Bytes) : Bytes :=
  if value = str "unspecified" ∨ value = str "unset" ∨ value = str "set" then [] else value

theorem recordAttributes (filter diff : Bytes) :
    recordAttribute (recordAttribute ([], []) (str "filter") filter) (str "diff") diff =
      (reported filter, reported diff) := by
  have hne : str "diff" ≠ str "filter" := by decide
  have hfilter : recordAttribute ([], []) (str "filter") filter = (reported filter, []) := by
    rw [recordAttribute, if_pos (show str "filter" = str "filter" from rfl), reported]
    split_ifs <;> rfl
  have hdiff (a : Bytes) : recordAttribute (a, []) (str "diff") diff = (a, reported diff) := by
    rw [recordAttribute, if_neg hne, if_pos rfl, reported]
    split_ifs <;> rfl
  rw [hfilter, hdiff]

/-- The name of a filter is reported as it is. -/
theorem reported_eq_attributeName {value : Bytes} {keyName : Option Bytes} :
    reported value = attributeName keyName ↔ value = attributeName keyName := by
  have hhead : (attributeName keyName).head? = some 103 := by cases keyName <;> rfl
  unfold reported
  split_ifs with h
  · refine iff_of_false ?_ ?_
    · intro he
      rw [← he] at hhead
      cases hhead
    · rintro rfl
      rcases h with h | h | h <;> rw [h] at hhead <;> exact absurd hhead (by decide)
  · rfl

theorem readAttributeReply_triple (attrs : Bytes × Bytes) {name attr value : Bytes} (hname : (0 : UInt8) ∉ name)
    (hattr : (0 : UInt8) ∉ attr) (hvalue : (0 : UInt8) ∉ value) (rest : Bytes) :
    readAttributeReply attrs (ofBytes (attributeTriple name attr value ++ rest)) =
      (recordAttribute attrs attr value, ofBytes rest) := by
  have h₁ := getline_ofBytes hname (attr ++ 0 :: (value ++ 0 :: rest))
  have h₂ := getline_ofBytes hattr (value ++ 0 :: rest)
  have h₃ := getline_ofBytes hvalue rest
  unfold readAttributeReply attributeTriple
  simp only [List.append_assoc, List.cons_append, List.nil_append, h₁, h₂, h₃]

variable {env : Env} {attributes : Attributes}

/-- The answer on the stream, for one path. -/
theorem getFileAttributesFrom_triples {name filter diff : Bytes} (hname : (0 : UInt8) ∉ name)
    (hfilter : (0 : UInt8) ∉ filter) (hdiff : (0 : UInt8) ∉ diff)
    (hreply : env.checkAttrReply name =
      attributeTriple name (str "filter") filter ++ attributeTriple name (str "diff") diff) :
    getFileAttributesFrom env name (ofBytes []) = ((reported filter, reported diff), ofBytes []) := by
  have hstream : ({ ofBytes [] with rest := [] ++ env.checkAttrReply name } : IStream) =
      ofBytes (attributeTriple name (str "filter") filter ++ (attributeTriple name (str "diff") diff ++ [])) := by
    rw [hreply, List.append_nil]
    rfl
  have hfilterName : (0 : UInt8) ∉ str "filter" := by decide
  have hdiffName : (0 : UInt8) ∉ str "diff" := by decide
  unfold getFileAttributesFrom
  rw [ofBytes_rest, hstream]
  simp only [readAttributeReply_triple _ hname hfilterName hfilter,
    readAttributeReply_triple _ hname hdiffName hdiff, recordAttributes]

theorem getFileAttributesFrom_spec (h : Answers env attributes) {name : Bytes} (hname : (0 : UInt8) ∉ name) :
    getFileAttributesFrom env name (ofBytes []) =
      ((reported (attributes.filter name), reported (attributes.diff name)), ofBytes []) :=
  getFileAttributesFrom_triples hname (attributes.filter_isValue name).1 (attributes.diff_isValue name).1
    (h.stream name hname)

/-- Each answer is paired with the name it was asked for. -/
theorem filterAttributesFrom_eq (h : Answers env attributes) {names : List Bytes}
    (hnames : ∀ name ∈ names, (0 : UInt8) ∉ name) :
    filterAttributesFrom env names (ofBytes []) = names.map fun name => reported (attributes.filter name) := by
  induction names with
  | nil => rfl
  | cons name names ih =>
    rw [List.forall_mem_cons] at hnames
    rw [filterAttributesFrom]
    simp only [getFileAttributesFrom_spec h hnames.1, ih hnames.2, List.map_cons]

private theorem find_reverse_range {f : Nat → Bool} {p n : Nat} (hp : p < n) (hf : f p = true)
    (hlater : ∀ q, p < q → q < n → f q = false) : (List.range n).reverse.find? f = some p := by
  induction n with
  | zero => exact absurd hp (by omega)
  | succ n ih =>
    rw [List.range_succ, List.reverse_append, List.reverse_singleton, List.singleton_append]
    by_cases he : p = n
    · subst he
      exact List.find?_cons_of_pos hf
    · rw [List.find?_cons_of_neg (by simp [hlater n (by omega) (by omega)])]
      exact ih (by omega) fun q hpq hq => hlater q hpq (by omega)

/-- The last colon before a blank. -/
theorem rfindColon_eq {s : Bytes} {pos p : Nat} (hp : p ≤ pos) (hat : (s.drop p).take 2 = str ": ")
    (hlater : ∀ q, p < q → q ≤ pos → s[q + 1]? ≠ some 32) : rfindColon s pos = some p := by
  refine find_reverse_range (Nat.lt_succ_of_le hp) (decide_eq_true hat) fun q hpq hq => decide_eq_false fun hat' => ?_
  refine hlater q hpq (Nat.le_of_lt_succ hq) ?_
  have hblank : ((s.drop q).take 2)[1]? = some 32 := by rw [hat']; rfl
  rwa [List.getElem?_take_of_lt (by decide), List.getElem?_drop] at hblank

theorem readAttributeLine_line (attrs : Bytes × Bytes) (shown : Bytes) {attr value : Bytes}
    (hattr : (32 : UInt8) ∉ attr) (hvalue : (32 : UInt8) ∉ value) :
    readAttributeLine attrs (attributeLine shown attr value) = recordAttribute attrs attr value := by
  have hvalueLine : attributeLine shown attr value = (shown ++ str ": " ++ attr ++ str ": ") ++ value := rfl
  have hnameLine : attributeLine shown attr value = (shown ++ str ": ") ++ (attr ++ [58] ++ 32 :: value) := by
    simp [attributeLine, str]
  have hlength : (shown ++ str ": ").length = shown.length + 2 := by simp [str]
  have hlength' : (shown ++ str ": " ++ attr ++ str ": ").length = shown.length + attr.length + 4 := by
    simp only [str, List.length_append]
    simp
    omega
  have hvaluePos : rfindColon (attributeLine shown attr value) (attributeLine shown attr value).length =
      some (shown.length + attr.length + 1 + 1) := by
    refine rfindColon_eq ?_ ?_ fun q hq _ he => hvalue ?_
    · rw [hvalueLine, List.length_append, hlength']
      omega
    · rw [attributeLine, List.append_assoc (shown ++ str ": " ++ attr), List.drop_append_of_le_length]
      · rw [List.drop_of_length_le (by simp [str]; omega)]
        rfl
      · simp [str]
        omega
    · rw [hvalueLine, List.getElem?_append_right (by omega)] at he
      exact List.mem_of_getElem? he
  have hnamePos : rfindColon (attributeLine shown attr value) (shown.length + attr.length + 1) =
      some shown.length := by
    refine rfindColon_eq (by omega) ?_ fun q hq hle he => ?_
    · rw [hnameLine, List.append_assoc, List.drop_left]
      rfl
    · rw [hnameLine, List.getElem?_append_right (by omega), hlength, List.getElem?_append_left] at he
      · rcases List.mem_append.mp (List.mem_of_getElem? he) with h | h
        · exact hattr h
        · exact absurd h (by decide)
      · simp
        omega
  have hname : ((attributeLine shown attr value).drop (shown.length + 2)).take attr.length = attr := by
    rw [hnameLine, ← hlength, List.drop_left, List.append_assoc, List.take_left]
  have hrest : (attributeLine shown attr value).drop (shown.length + attr.length + 4) = value := by
    rw [hvalueLine, ← hlength', List.drop_left]
  unfold readAttributeLine
  rw [hvaluePos]
  dsimp only
  rw [hnamePos]
  dsimp only
  rw [show shown.length + attr.length + 1 + 1 - (shown.length + 2) = attr.length by omega, hname,
    show shown.length + attr.length + 1 + 3 = shown.length + attr.length + 4 by omega, hrest]

theorem splitLines_append {delim : UInt8} {line : Bytes} (h : delim ∉ line) (rest : Bytes) :
    splitLines delim (line ++ delim :: rest) = line :: splitLines delim rest := by
  induction line with
  | nil => exact if_pos rfl
  | cons c line ih =>
    rw [List.mem_cons, not_or] at h
    rw [List.cons_append, splitLines, if_neg (Ne.symm h.1), ih h.2]

/-- The answer of a process of its own, for one path that may be shown in another way. -/
theorem readAttributeLines_lines {shown filter diff : Bytes} (hshown : (10 : UInt8) ∉ shown)
    (hfilter : IsValue filter) (hdiff : IsValue diff) :
    (splitLines 10 (attributeLine shown (str "filter") filter ++
      10 :: (attributeLine shown (str "diff") diff ++ [10]))).foldl readAttributeLine ([], []) =
      (reported filter, reported diff) := by
  have hline {attr value : Bytes} (hattr : (10 : UInt8) ∉ attr) (hvalue : (10 : UInt8) ∉ value) :
      (10 : UInt8) ∉ attributeLine shown attr value := by
    have hcolon : (10 : UInt8) ∉ str ": " := by decide
    simp [attributeLine, hshown, hattr, hvalue, hcolon]
  rw [splitLines_append (hline (by decide) hfilter.2.1), splitLines_append (hline (by decide) hdiff.2.1),
    splitLines, List.foldl_cons, List.foldl_cons, List.foldl_nil,
    readAttributeLine_line _ shown (by decide) hfilter.2.2, readAttributeLine_line _ shown (by decide) hdiff.2.2,
    recordAttributes]

private theorem readAttributeLines (h : Answers env attributes) {name : Bytes} (hname : (0 : UInt8) ∉ name) :
    (splitLines 10 (env.checkAttr name)).foldl readAttributeLine ([], []) =
      (reported (attributes.filter name), reported (attributes.diff name)) := by
  obtain ⟨shown, hshown, hlines⟩ := h.lines name hname
  rw [hlines, readAttributeLines_lines hshown (attributes.filter_isValue name) (attributes.diff_isValue name)]

/-- Both readers find the same pair for a path, whatever bytes it consists of and however git
shows it on a line. -/
theorem getFileAttributes_agree {name shown filter diff : Bytes} (hname : (0 : UInt8) ∉ name)
    (hshown : (10 : UInt8) ∉ shown) (hfilter : IsValue filter) (hdiff : IsValue diff)
    (hlines : env.checkAttr name = attributeLine shown (str "filter") filter ++
      10 :: (attributeLine shown (str "diff") diff ++ [10]))
    (hreply : env.checkAttrReply name =
      attributeTriple name (str "filter") filter ++ attributeTriple name (str "diff") diff) (w : World) :
    (getFileAttributes env name w).1 = (if env.fails w.ops
      then .error (.error (str "'git check-attr' failed - is this a Git repository?"))
      else .ok (getFileAttributesFrom env name (ofBytes [])).1) ∧
    (getFileAttributesFrom env name (ofBytes [])).1 = (reported filter, reported diff) := by
  have hstream := getFileAttributesFrom_triples hname hfilter.1 hdiff.1 hreply
  have hread := readAttributeLines_lines hshown hfilter hdiff
  rw [hstream]
  refine ⟨?_, rfl⟩
  by_cases hfails : env.fails w.ops = true
  · rw [if_pos hfails]
    simp only [getFileAttributes, Prog.bind_apply, execCommand, if_pos hfails]
    rfl
  · rw [if_neg hfails, ← hread, ← hlines]
    simp only [getFileAttributes, Prog.bind_apply, execCommand, if_neg hfails]
    rfl

/-- A git that answers alike about every path. -/
def uniformEnv (filter diff : Bytes) : Env :=
  { freshEnv with
    checkAttr := fun name => attributeLine name (str "filter") filter ++
      10 :: (attributeLine name (str "diff") diff ++ [10])
    checkAttrReply := fun name => attributeTriple name (str "filter") filter ++
      attributeTriple name (str "diff") diff }

/-- A name with `: ` in it that ends in a colon. -/
theorem getFileAttributes_agree_colon :
    (getFileAttributes (uniformEnv (str "git-crypt") (str "set")) (str "a: diff: b:")
      (freshRepo.start (uniformEnv (str "git-crypt") (str "set")))).1 =
        .ok (getFileAttributesFrom (uniformEnv (str "git-crypt") (str "set")) (str "a: diff: b:") (ofBytes [])).1 ∧
    (getFileAttributesFrom (uniformEnv (str "git-crypt") (str "set")) (str "a: diff: b:") (ofBytes [])).1 =
      (str "git-crypt", []) :=
  @getFileAttributes_agree (uniformEnv (str "git-crypt") (str "set")) _ (str "a: diff: b:") _ _
    (by decide) (by decide) (by decide) (by decide) rfl rfl _

/-! ### The files -/

theorem getFileAttributes_returns (h : Answers env attributes) {name : Bytes} (hname : (0 : UInt8) ∉ name)
    (P : Repo → Prop) :
    Returns P (getFileAttributes env name) fun attrs r =>
      P r ∧ attrs = (reported (attributes.filter name), reported (attributes.diff name)) := by
  refine .bind (R := fun out r => P r ∧ (out.1 = 0 → out.2 = env.checkAttr name))
    (execCommand_returns (fun r hr => ⟨hr, by simp⟩) fun w hw => ⟨hw, fun _ => rfl⟩) ?_
  rintro ⟨status, output⟩
  refine .bind (requireSuccess_returns _ _ _) fun _ => .pure ?_
  rintro r ⟨⟨hr, hout⟩, hs⟩
  have hlines : output = env.checkAttr name := hout hs
  exact ⟨hr, by rw [hlines, readAttributeLines h hname]⟩

theorem filterAttributes_returns (h : Answers env attributes) {names : List Bytes}
    (hnames : ∀ name ∈ names, (0 : UInt8) ∉ name) (P : Repo → Prop) :
    Returns P (filterAttributes env names) fun attrs r =>
      P r ∧ attrs = names.map fun name => reported (attributes.filter name) := by
  induction names with
  | nil => exact .pure fun r hr => ⟨hr, rfl⟩
  | cons name names ih =>
    rw [List.forall_mem_cons] at hnames
    refine .bind (getFileAttributes_returns h hnames.1 P) fun attrs => .of_start fun r ⟨hr, hattr⟩ => ?_
    refine .bind ((ih hnames.2).start hr) fun rest => .pure ?_
    rintro r' ⟨hr', hrest⟩
    exact ⟨hr', by rw [hattr, hrest, List.map_cons]⟩

private theorem zip_filter (names : List Bytes) (f : Bytes → Bytes) (a : Bytes) :
    ((names.zip (names.map f)).filter (·.2 = a)).map (·.1) = names.filter (f · = a) := by
  induction names with
  | nil => rfl
  | cons name names ih =>
    rw [List.map_cons, List.zip_cons_cons]
    by_cases h : f name = a
    · rw [List.filter_cons_of_pos (by simpa using h), List.filter_cons_of_pos (by simpa using h), List.map_cons, ih]
    · rw [List.filter_cons_of_neg (by simpa using h), List.filter_cons_of_neg (by simpa using h), ih]

/-- The regular files of a listing with the filter of a key. -/
def encryptedNames (attributes : Attributes) (keyName : Option Bytes) (names : List Bytes) : List Bytes :=
  names.filter (attributes.filter · = attributeName keyName)

def fileNames (entries : List IndexEntry) : List Bytes := (entries.filter (·.isFile)).map (·.name)

/-- The names `get_encrypted_files` asks attributes for, of what `git ls-files` prints. -/
def listedNames (output : Bytes) : List Bytes :=
  ((readListing (.ofBytes output)).filter (isGitFileMode ·.1)).map (·.2)

private theorem noNul_of_mem_readListing {s : IStream} {p : Bytes × Bytes} (h : p ∈ readListing s) :
    (0 : UInt8) ∉ p.2 := by
  fun_induction readListing s with
  | case1 s _ ih =>
    rcases List.mem_cons.mp h with rfl | h
    · exact delim_notMem_getline _ 0
    · exact ih h
  | case2 => cases h

/-- Whatever the listing is, the names with the filter of the key are found. -/
theorem getEncryptedFiles_lists (h : Answers env attributes) (keyName : Option Bytes) (output : Bytes) :
    Returns (fun r => env.lsFiles r.fs = output) (getEncryptedFiles env keyName)
      fun files _ => files = encryptedNames attributes keyName (listedNames output) := by
  have hnames : ∀ name ∈ listedNames output, (0 : UInt8) ∉ name := by
    intro name hname
    obtain ⟨p, hp, rfl⟩ := List.mem_map.mp hname
    exact noNul_of_mem_readListing (List.mem_of_mem_filter hp)
  have hfound (attrs : List Bytes) (ha : attrs = (listedNames output).map fun name => reported (attributes.filter name)) :
      (((listedNames output).zip attrs).filter (·.2 = attributeName keyName)).map (·.1) =
        encryptedNames attributes keyName (listedNames output) := by
    rw [ha, zip_filter, encryptedNames]
    simp only [reported_eq_attributeName]
  refine getPathToTop_quiet.andThen fun pathToTop => ?_
  refine .bind (R := fun out r => out.1 = 0 → out.2 = output) (execCommand_returns (by simp) fun w hw _ => hw) ?_
  rintro ⟨status, printed⟩
  refine gitVersion_quiet.andThen fun version => .of_start fun r₀ hout => ?_
  refine .ite (fun _ => ?_) fun _ => ?_
  · refine (execCommand_quiet rfl fun _ => rfl).andThen ?_
    rintro ⟨checkAttrStatus, -⟩
    refine .bind (requireSuccess_returns _ _ _) fun _ => .bind (requireSuccess_returns _ _ _) fun _ => .pure ?_
    rintro r ⟨⟨-, hs⟩, -⟩
    obtain rfl : printed = output := hout hs
    exact hfound _ (filterAttributesFrom_eq h hnames)
  · by_cases hs : status = 0
    · obtain rfl : printed = output := hout hs
      refine .bind (filterAttributes_returns h hnames _) fun attrs => .of_start fun r ⟨_, hattrs⟩ => ?_
      exact (requireSuccess_quiet _ _).andThen fun _ => .pure fun _ _ => hfound attrs hattrs
    · exact (filterAttributes_quiet _).andThen fun attrs => .bind (requireSuccess_returns _ _ _) fun _ =>
        .pure fun r hr => absurd hr.2 hs

/-- Of a listing of entries the names are without the white space they begin with, and it is
the attributes of these names that count. -/
theorem getEncryptedFiles_returns (h : Answers env attributes) (keyName : Option Bytes)
    (entries : List IndexEntry) :
    Returns (fun r => env.lsFiles r.fs = entries.flatMap (·.line)) (getEncryptedFiles env keyName)
      fun files _ => files = encryptedNames attributes keyName ((fileNames entries).map stripped) :=
  (getEncryptedFiles_lists h keyName _).post fun files _ hfiles => by rw [hfiles, listedNames, listed_names]; rfl

theorem stripped_stripped (name : Bytes) : stripped (stripped name) = stripped name :=
  List.dropWhile_idempotent _ name

theorem stripped_ne_iff {name : Bytes} : stripped name ≠ name ↔ name.head?.any isSpace = true := by
  cases name with
  | nil => simp [stripped]
  | cons c name =>
    by_cases hc : isSpace c = true
    · refine iff_of_true (fun he => ?_) (by simpa using hc)
      have hlen := List.length_dropWhile_le isSpace name
      rw [stripped, List.dropWhile_cons_of_pos hc] at he
      rw [he, List.length_cons] at hlen
      omega
    · simp [stripped, hc]

/-- Names may be stripped before they are chosen exactly when no name that is changed by it
is chosen, as it was or as it is. -/
private theorem filter_map_stripped (names : List Bytes) (p : Bytes → Bool) :
    (names.map stripped).filter p = names.filter p ↔
      ∀ name ∈ names, stripped name ≠ name → p name = false ∧ p (stripped name) = false := by
  constructor
  · intro he
    have hfixed (name) (hmem : name ∈ names) (hp : p name = true) : stripped name = name := by
      have hname : name ∈ (names.map stripped).filter p := he ▸ List.mem_filter.mpr ⟨hmem, hp⟩
      obtain ⟨name', -, rfl⟩ := List.mem_map.mp (List.mem_filter.mp hname).1
      exact stripped_stripped name'
    -- as many are chosen either way, so no others are chosen once they are stripped
    have hsub : names.filter p = (names.filter (p ∘ stripped)).filter p := by
      rw [List.filter_filter]
      refine List.filter_congr fun name hmem => ?_
      by_cases hp : p name = true
      · simp [hfixed name hmem hp, hp]
      · simp [hp]
    have hlength : (names.filter p).length = (names.filter (p ∘ stripped)).length := by
      rw [← he, List.filter_map, List.length_map]
    have hsame : names.filter p = names.filter (p ∘ stripped) := by
      refine List.Sublist.eq_of_length ?_ hlength
      rw [hsub]
      exact List.filter_sublist
    intro name hmem hne
    have hp : ¬ p name = true := fun hp => hne (hfixed name hmem hp)
    refine ⟨by simpa using hp, Bool.eq_false_iff.mpr fun hp' => hp ?_⟩
    have hname : name ∈ names.filter p := hsame ▸ List.mem_filter.mpr ⟨hmem, hp'⟩
    exact (List.mem_filter.mp hname).2
  · intro h
    induction names with
    | nil => rfl
    | cons name names ih =>
      rw [List.forall_mem_cons] at h
      rw [List.map_cons, List.filter_cons, List.filter_cons, ih h.2]
      by_cases hne : stripped name = name
      · rw [hne]
      · simp [h.1 hne]

/-- Every answer of the running `git check-attr` is taken for the file it is about, and
`get_encrypted_files` finds exactly the encrypted files of a listing if and only if no regular
file with a name that begins with white space is encrypted, or would be under the name without
it. -/
theorem getEncryptedFiles_finds_all_iff {w w' : World} {files : List Bytes} {keyName : Option Bytes}
    {entries : List IndexEntry} (h : Answers env attributes)
    (hlisting : env.lsFiles w.fs = entries.flatMap (·.line))
    (hrun : getEncryptedFiles env keyName w = (.ok files, w')) :
    (∀ names : List Bytes, (∀ name ∈ names, (0 : UInt8) ∉ name) →
      filterAttributesFrom env names (ofBytes []) = names.map fun name => reported (attributes.filter name)) ∧
    (files = encryptedNames attributes keyName (fileNames entries) ↔
      ∀ e ∈ entries, e.isFile = true → e.name.head?.any isSpace = true →
        attributes.filter e.name ≠ attributeName keyName ∧
          attributes.filter (stripped e.name) ≠ attributeName keyName) := by
  refine ⟨fun names hnames => filterAttributesFrom_eq h hnames, ?_⟩
  rw [(getEncryptedFiles_returns h keyName entries).of_run hlisting hrun, encryptedNames, encryptedNames,
    filter_map_stripped]
  constructor
  · intro hnone e he hfile hspace
    have hmem : e.name ∈ fileNames entries := List.mem_map_of_mem (List.mem_filter.mpr ⟨he, hfile⟩)
    simpa using hnone e.name hmem (stripped_ne_iff.mpr hspace)
  · intro hnone name hmem hne
    obtain ⟨e, he, rfl⟩ := List.mem_map.mp hmem
    obtain ⟨he, hfile⟩ := List.mem_filter.mp he
    simpa using hnone e he hfile (stripped_ne_iff.mp hne)

/-- A git that lists these entries and answers with these attributes. -/
def answeringEnv (attributes : Attributes) (entries : List IndexEntry) : Env :=
  { freshEnv with
    lsFiles := fun _ => entries.flatMap (·.line)
    checkAttr := fun name =>
      attributeLine (name.filter (· ≠ 10)) (str "filter") (attributes.filter name) ++
        10 :: (attributeLine (name.filter (· ≠ 10)) (str "diff") (attributes.diff name) ++ [10])
    checkAttrReply := fun name => attributeTriple name (str "filter") (attributes.filter name) ++
      attributeTriple name (str "diff") (attributes.diff name) }

theorem answers_answeringEnv (attributes : Attributes) (entries : List IndexEntry) :
    Answers (answeringEnv attributes entries) attributes :=
  ⟨fun _ _ => rfl, fun name _ => ⟨name.filter (· ≠ 10), by simp, rfl⟩⟩

/-- A file whose name begins with a blank. -/
def spacedFile : IndexEntry where
  mode := 0o100644
  objectId := str "d670460b4b4aece5915caf5c68d12f560a9fe3e4"
  stage := str "0"
  name := str " secret"
  objectId_isWord := by decide +kernel
  stage_isWord := by decide +kernel
  name_noNul := by decide +kernel

/-- This file has the filter of the default key. -/
def spacedAttributes : Attributes where
  filter name := if name = str " secret" then str "git-crypt" else str "unspecified"
  diff name := if name = str " secret" then str "git-crypt" else str "unspecified"
  filter_isValue name := by split_ifs <;> decide
  diff_isValue name := by split_ifs <;> decide

private theorem getEncryptedFiles_spacedFile : ∃ files w,
    getEncryptedFiles (answeringEnv spacedAttributes [spacedFile]) none
      (freshRepo.start (answeringEnv spacedAttributes [spacedFile])) = (.ok files, w) := by
  have h : (getEncryptedFiles (answeringEnv spacedAttributes [spacedFile]) none
      (freshRepo.start (answeringEnv spacedAttributes [spacedFile]))).1.isOk = true := by decide +kernel
  generalize getEncryptedFiles _ none _ = run at h
  rcases run with ⟨e | files, w⟩
  · cases h
  · exact ⟨files, w, rfl⟩

theorem getEncryptedFiles_finds_all_iff_spacedFile : ∃ files w,
    getEncryptedFiles (answeringEnv spacedAttributes [spacedFile]) none
      (freshRepo.start (answeringEnv spacedAttributes [spacedFile])) = (.ok files, w) ∧
    (files = encryptedNames spacedAttributes none (fileNames [spacedFile]) ↔
      ∀ e ∈ [spacedFile], e.isFile = true → e.name.head?.any isSpace = true →
        spacedAttributes.filter e.name ≠ attributeName none ∧
          spacedAttributes.filter (stripped e.name) ≠ attributeName none) := by
  obtain ⟨files, w, hrun⟩ := getEncryptedFiles_spacedFile
  exact ⟨files, w, hrun, (getEncryptedFiles_finds_all_iff (answers_answeringEnv _ _) rfl hrun).2⟩

/-- The file is not found: git is asked about `secret`. -/
theorem getEncryptedFiles_misses_spacedFile : ∃ w,
    Answers (answeringEnv spacedAttributes [spacedFile]) spacedAttributes ∧
    getEncryptedFiles (answeringEnv spacedAttributes [spacedFile]) none
      (freshRepo.start (answeringEnv spacedAttributes [spacedFile])) = (.ok [], w) ∧
    encryptedNames spacedAttributes none (fileNames [spacedFile]) = [str " secret"] := by
  obtain ⟨files, w, hrun⟩ := getEncryptedFiles_spacedFile
  have hanswers := answers_answeringEnv spacedAttributes [spacedFile]
  obtain rfl : files = [] := (getEncryptedFiles_returns hanswers none [spacedFile]).of_run rfl hrun
  exact ⟨w, hanswers, hrun, rfl⟩

end GitCrypt
