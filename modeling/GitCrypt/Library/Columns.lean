import Mathlib.Data.List.Basic
import Mathlib.Data.List.TakeWhile

/-! Lines of columns with a separator between them. -/
namespace Columns
variable {α : Type} {sep eol : α}

/-- A record on one line: a tag and at least one column more. None of them has the separator or the
end of the line in it. -/
structure Record (sep eol : α) where
  tag : List α
  columns : List (List α)
  columns_ne : columns ≠ []
  plain : ∀ column ∈ tag :: columns, sep ∉ column ∧ eol ∉ column

namespace Record

def line (r : Record sep eol) : List α := r.tag ++ r.columns.flatMap (sep :: ·)

/-- The column, where the tag is column 0. -/
def column (r : Record sep eol) (n : Nat) : Option (List α) := (r.tag :: r.columns)[n]?

end Record

section
variable [DecidableEq α]

theorem takeWhile_column {column : List α} (h : sep ∉ column) (rest : List α) :
    (column ++ sep :: rest).takeWhile (· ≠ sep) = column := by
  rw [List.takeWhile_append_of_pos, List.takeWhile_cons_of_neg (by simp), List.append_nil]
  intro a ha
  exact decide_eq_true fun he => h (he ▸ ha)

theorem dropWhile_column {column : List α} (h : sep ∉ column) (rest : List α) :
    (column ++ sep :: rest).dropWhile (· ≠ sep) = sep :: rest := by
  rw [List.dropWhile_append_of_pos, List.dropWhile_cons_of_neg (by simp)]
  intro a ha
  exact decide_eq_true fun he => h (he ▸ ha)

theorem takeWhile_last {column : List α} (h : sep ∉ column) : column.takeWhile (· ≠ sep) = column := by
  rw [List.takeWhile_eq_self_iff]
  intro a ha
  exact decide_eq_true fun he => h (he ▸ ha)

end

namespace Record

theorem line_eq (r : Record sep eol) : ∃ rest, r.line = r.tag ++ sep :: rest := by
  obtain ⟨column, columns, hcolumns⟩ := List.exists_cons_of_ne_nil r.columns_ne
  refine ⟨column ++ columns.flatMap (sep :: ·), ?_⟩
  rw [line, hcolumns]
  rfl

/-- A line begins with a tag and a separator just when that is its tag. -/
theorem take_line_iff [DecidableEq α] (r : Record sep eol) {tag : List α} (h : sep ∉ tag) :
    r.line.take (tag.length + 1) = tag ++ [sep] ↔ r.tag = tag := by
  obtain ⟨rest, hline⟩ := r.line_eq
  have hplain := (r.plain r.tag List.mem_cons_self).1
  constructor
  · intro htake
    have hsame := congrArg (List.takeWhile (· ≠ sep)) (List.take_append_drop (tag.length + 1) r.line)
    rw [htake, List.append_assoc, List.singleton_append, takeWhile_column h, hline, takeWhile_column hplain] at hsame
    exact hsame.symm
  · rintro rfl
    rw [hline, List.take_append, List.take_of_length_le (Nat.le_succ _), Nat.add_sub_cancel_left]
    rfl

theorem eol_notMem_line (r : Record sep eol) (h : eol ≠ sep) : eol ∉ r.line := by
  intro hmem
  rcases List.mem_append.mp hmem with htag | hcolumns
  · exact (r.plain r.tag List.mem_cons_self).2 htag
  · obtain ⟨column, hcolumn, hmem⟩ := List.mem_flatMap.mp hcolumns
    rcases List.mem_cons.mp hmem with he | hin
    · exact h he
    · exact (r.plain column (List.mem_cons_of_mem _ hcolumn)).2 hin

end Record
end Columns
