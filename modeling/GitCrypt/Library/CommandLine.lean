import Mathlib.Data.List.Basic

/-! How a Windows program takes its command line apart, by the rules of the C runtime: an even
number of backslashes before a double quote stands for half as many and a quote that begins or
ends a quoted part, an odd number for half as many and a literal quote, and all other
backslashes stand for themselves. -/
namespace Windows.CommandLine

def isBlank (c : UInt8) : Bool := c = 32 || c = 9

/-- The arguments in the rest of a command line, after `n` backslashes of which it is not known
yet what they stand for. -/
def splitFrom : Bool → Nat → Option (List UInt8) → List UInt8 → List (List UInt8)
  | _, n, word, [] => (word.map (· ++ List.replicate n 92)).toList
  | quoted, n, word, c :: rest =>
    if c = 92 then splitFrom quoted (n + 1) (some (word.getD [])) rest
    else if c = 34 then
      let word := word.getD [] ++ List.replicate (n / 2) 92
      if n % 2 = 0 then splitFrom (!quoted) 0 (some word) rest
      else splitFrom quoted 0 (some (word ++ [34])) rest
    else if isBlank c && !quoted then
      (word.map (· ++ List.replicate n 92)).toList ++ splitFrom false 0 none rest
    else splitFrom quoted 0 (some (word.getD [] ++ List.replicate n 92 ++ [c])) rest

/-- The program comes first. In its name backslashes have no meaning. -/
def splitProgram : Bool → List UInt8 → List UInt8 → List (List UInt8)
  | _, name, [] => [name]
  | quoted, name, c :: rest =>
    if c = 34 then splitProgram (!quoted) name rest
    else if isBlank c && !quoted then name :: splitFrom false 0 none rest
    else splitProgram quoted (name ++ [c]) rest

def split (cmdline : List UInt8) : List (List UInt8) := splitProgram false [] cmdline

section
variable {quoted : Bool} {n : Nat} {word name s : List UInt8}

theorem splitFrom_backslashes (quoted : Bool) (n k : Nat) (word s : List UInt8) :
    splitFrom quoted n (some word) (List.replicate k 92 ++ s) = splitFrom quoted (n + k) (some word) s := by
  induction k generalizing n with
  | zero => rfl
  | succ k ih =>
    rw [List.replicate_succ, List.cons_append, splitFrom, if_pos rfl, Option.getD_some, ih, Nat.add_right_comm,
      Nat.add_assoc]

/-- Twice as many backslashes, and a quote that begins or ends something. -/
theorem splitFrom_even_quote (quoted : Bool) (n : Nat) (word s : List UInt8) :
    splitFrom quoted (2 * n) (some word) (34 :: s) =
      splitFrom (!quoted) 0 (some (word ++ List.replicate n 92)) s := by
  rw [splitFrom, if_neg (by decide), if_pos rfl]
  dsimp only
  rw [if_pos (by omega), Option.getD_some, Nat.mul_div_cancel_left n (by decide)]

theorem splitFrom_odd_quote (quoted : Bool) (n : Nat) (word s : List UInt8) :
    splitFrom quoted (2 * n + 1) (some word) (34 :: s) =
      splitFrom quoted 0 (some (word ++ List.replicate n 92 ++ [34])) s := by
  rw [splitFrom, if_neg (by decide), if_pos rfl]
  dsimp only
  rw [if_neg (by omega), Option.getD_some, show (2 * n + 1) / 2 = n by omega]

/-- Inside quotes any other byte makes the backslashes before it stand for themselves. -/
theorem splitFrom_literal {c : UInt8} (hbackslash : c ≠ 92) (hquote : c ≠ 34) (n : Nat) (word s : List UInt8) :
    splitFrom true n (some word) (c :: s) = splitFrom true 0 (some (word ++ List.replicate n 92 ++ [c])) s := by
  rw [splitFrom, if_neg hbackslash, if_neg hquote, if_neg (by simp), Option.getD_some]

theorem splitFrom_next (word s : List UInt8) :
    splitFrom false 0 (some word) (32 :: s) = word :: splitFrom false 0 none s := by
  rw [splitFrom, if_neg (by decide), if_neg (by decide), if_pos (by decide)]
  simp

theorem splitFrom_end (word : List UInt8) : splitFrom false 0 (some word) [] = [word] := by
  simp [splitFrom]

theorem splitFrom_open (s : List UInt8) : splitFrom false 0 none (34 :: s) = splitFrom true 0 (some []) s := by
  rw [splitFrom, if_neg (by decide), if_pos rfl]
  rfl

/-- A program name in quotes is read as it is. -/
theorem splitProgram_quoted {s : List UInt8} (h : (34 : UInt8) ∉ s) (name rest : List UInt8) :
    splitProgram true name (s ++ 34 :: rest) = splitProgram false (name ++ s) rest := by
  induction s generalizing name with
  | nil => rw [List.nil_append, List.append_nil, splitProgram, if_pos rfl, Bool.not_true]
  | cons c s ih =>
    rw [List.mem_cons, not_or] at h
    rw [List.cons_append, splitProgram, if_neg (Ne.symm h.1), if_neg (by simp), ih h.2, List.append_assoc,
      List.singleton_append]

end

/-- The program, a word in quotes with a blank in it, and a quote with a backslash before it. -/
example : split ([97, 32, 34, 98, 32, 99, 34, 32, 92, 92, 92, 34]) = [[97], [98, 32, 99], [92, 34]] := by
  decide

end Windows.CommandLine
