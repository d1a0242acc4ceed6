import Mathlib.Data.List.Basic

/-! How a POSIX shell splits a simple command into words. Only the quoting is carried out:
where the shell would expand something, or see more than words, there is no result. -/
namespace Posix.Shell

/-- What the next byte is part of. -/
inductive Mode where
  | unquoted
  | escaped
  | single
  | double
  | doubleEscaped
  deriving DecidableEq, Repr

def isBlank (c : UInt8) : Bool := c = 32 || c = 9

/-- The bytes that cannot stand for themselves outside quotes, or not everywhere: those of
operators, expansions, patterns, comments and job names, newline, and NUL. -/
def isSpecial (c : UInt8) : Bool :=
  c ∈ [0, 10, 33, 35, 36, 37, 38, 40, 41, 42, 59, 60, 62, 63, 91, 96, 123, 124, 125, 126]

/-- Inside double quotes a backslash escapes only these. -/
def isEscapable (c : UInt8) : Bool := c = 34 || c = 92 || c = 36 || c = 96

/-- The words of the rest of a command. `first` holds until the command name is complete:
outside quotes it could be a reserved word, an alias or an assignment, so it has to be
quoted whole. -/
def splitFrom : Bool → Mode → Option (List UInt8) → List UInt8 → Option (List (List UInt8))
  | _, .unquoted, word, [] => some word.toList
  | _, _, _, [] => none
  | first, .unquoted, word, c :: rest =>
    if isBlank c then (word.toList ++ ·) <$> splitFrom (first && word.isNone) .unquoted none rest
    else if c = 34 then splitFrom first .double (some (word.getD [])) rest
    else if c = 39 then splitFrom first .single (some (word.getD [])) rest
    else if c = 92 then splitFrom first .escaped (some (word.getD [])) rest
    else if first || isSpecial c then none
    else splitFrom first .unquoted (some (word.getD [] ++ [c])) rest
  | first, .escaped, word, c :: rest =>
    if c = 0 ∨ c = 10 then none else splitFrom first .unquoted (some (word.getD [] ++ [c])) rest
  | first, .single, word, c :: rest =>
    if c = 39 then splitFrom first .unquoted word rest
    else if c = 0 then none
    else splitFrom first .single (some (word.getD [] ++ [c])) rest
  | first, .double, word, c :: rest =>
    if c = 34 then splitFrom first .unquoted word rest
    else if c = 92 then splitFrom first .doubleEscaped word rest
    else if c = 0 ∨ c = 36 ∨ c = 96 then none
    else splitFrom first .double (some (word.getD [] ++ [c])) rest
  | first, .doubleEscaped, word, c :: rest =>
    if isEscapable c then splitFrom first .double (some (word.getD [] ++ [c])) rest
    else if c = 0 ∨ c = 10 then none
    else splitFrom first .double (some (word.getD [] ++ [92, c])) rest

/-- The words of a command, where nothing in it is expanded. -/
def words (command : List UInt8) : Option (List (List UInt8)) := splitFrom true .unquoted none command

/-- Double quotes around, and a backslash before what they do not protect. -/
def quoteDouble (s : List UInt8) : List UInt8 :=
  [34] ++ s.flatMap (fun c => if c = 34 ∨ c = 92 ∨ c = 36 ∨ c = 96 then [92, c] else [c]) ++ [34]

/-- A byte that stands for itself outside quotes. -/
def IsPlain (c : UInt8) : Prop :=
  isBlank c = false ∧ c ≠ 34 ∧ c ≠ 39 ∧ c ≠ 92 ∧ isSpecial c = false

instance : DecidablePred IsPlain := fun _ => inferInstanceAs (Decidable (_ ∧ _ ∧ _ ∧ _ ∧ _))

theorem mem_of_not_isPlain {c : UInt8} (h : ¬ IsPlain c) :
    c ∈ [9, 32, 34, 39, 92, 0, 10, 33, 35, 36, 37, 38, 40, 41, 42, 59, 60, 62, 63, 91, 96, 123, 124, 125,
      126] := by
  by_contra hmem
  simp only [List.mem_cons, List.not_mem_nil, or_false, not_or] at hmem
  exact h (by simp [IsPlain, isBlank, isSpecial, hmem])

/-- Quoting is undone, byte by byte. -/
theorem splitFrom_double {s : List UInt8} (h : (0 : UInt8) ∉ s) (first : Bool) (word rest : List UInt8) :
    splitFrom first .double (some word)
        (s.flatMap (fun c => if c = 34 ∨ c = 92 ∨ c = 36 ∨ c = 96 then [92, c] else [c]) ++ 34 :: rest) =
      splitFrom first .unquoted (some (word ++ s)) rest := by
  induction s generalizing word with
  | nil => simp [splitFrom]
  | cons c s ih =>
    rw [List.mem_cons, not_or] at h
    have hrest := ih h.2 (word ++ [c])
    rw [List.append_assoc, List.singleton_append] at hrest
    rw [List.flatMap_cons]
    by_cases hc : c = 34 ∨ c = 92 ∨ c = 36 ∨ c = 96
    · have he : isEscapable c = true := by simpa [isEscapable, or_assoc] using hc
      rw [if_pos hc, ← hrest]
      simp [splitFrom, he]
    · rw [if_neg hc, ← hrest]
      simp only [not_or] at hc
      simp [splitFrom, hc, Ne.symm h.1]

/-- Plain bytes go on with the word. -/
theorem splitFrom_plain {s : List UInt8} (h : ∀ c ∈ s, IsPlain c) (word rest : List UInt8) :
    splitFrom false .unquoted (some word) (s ++ rest) =
      splitFrom false .unquoted (some (word ++ s)) rest := by
  induction s generalizing word with
  | nil => simp
  | cons c s ih =>
    obtain ⟨⟨hblank, h34, h39, h92, hspecial⟩, hs⟩ := List.forall_mem_cons.mp h
    have hrest := ih hs (word ++ [c])
    rw [List.append_assoc, List.singleton_append] at hrest
    rw [← hrest]
    simp [splitFrom, hblank, h34, h39, h92, hspecial]

theorem splitFrom_blank (first : Bool) (word rest : List UInt8) :
    splitFrom first .unquoted (some word) (32 :: rest) =
      (word :: ·) <$> splitFrom false .unquoted none rest := by
  simp [splitFrom, isBlank]

/-- A plain word is taken whole, up to the blank before the next word. -/
theorem splitFrom_args {args : List (List UInt8)} (h : ∀ a ∈ args, a ≠ [] ∧ ∀ c ∈ a, IsPlain c)
    (first : Bool) (word : List UInt8) :
    splitFrom first .unquoted (some word) (args.flatMap (32 :: ·)) = some (word :: args) := by
  induction args generalizing first word with
  | nil => simp [splitFrom]
  | cons a args ih =>
    obtain ⟨⟨hne, hplain⟩, hargs⟩ := List.forall_mem_cons.mp h
    obtain ⟨c, a, rfl⟩ := List.exists_cons_of_ne_nil hne
    obtain ⟨hc, ha⟩ := List.forall_mem_cons.mp hplain
    have hstart (rest : List UInt8) : splitFrom false .unquoted none (c :: rest) =
        splitFrom false .unquoted (some [c]) rest := by
      obtain ⟨hblank, h34, h39, h92, hspecial⟩ := hc
      simp [splitFrom, hblank, h34, h39, h92, hspecial]
    rw [List.flatMap_cons, List.cons_append, splitFrom_blank, List.cons_append, hstart,
      splitFrom_plain ha, List.singleton_append, ih hargs]
    rfl

/-- A quoted command name with plain arguments is split into just these words. -/
theorem words_quoteDouble {s : List UInt8} (hs : (0 : UInt8) ∉ s) {args : List (List UInt8)}
    (hargs : ∀ a ∈ args, a ≠ [] ∧ ∀ c ∈ a, IsPlain c) :
    words (quoteDouble s ++ args.flatMap (32 :: ·)) = some (s :: args) := by
  have hword := splitFrom_double hs true [] (args.flatMap (32 :: ·))
  rw [List.nil_append, splitFrom_args hargs] at hword
  rw [← hword]
  simp [words, quoteDouble, splitFrom, isBlank]

end Posix.Shell
