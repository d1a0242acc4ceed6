import Mathlib.Data.List.MinMax
import GitCrypt.Library.DescMap

/-! Maps of values under keys of their own, and what was put into them: a map has the last value of
each key. -/
namespace DescMap
variable {κ α : Type} [LinearOrder κ] {key : α → κ} {m : DescMap κ α} {added : List α} {k : κ} {a : α}

/-- The last of the values that have the key. -/
def lastWith (key : α → κ) (added : List α) (k : κ) : Option α := (added.filter fun a => key a = k).getLast?

/-- The greatest of their keys. -/
def greatestKey (key : α → κ) (added : List α) : Option κ := (added.map key).max?

theorem lastWith_concat : lastWith key (added ++ [a]) k = if key a = k then some a else lastWith key added k := by
  unfold lastWith
  rw [List.filter_append]
  by_cases hkey : key a = k
  · have hlast : [a].filter (fun a => key a = k) = [a] := by simp [hkey]
    rw [if_pos hkey, hlast, List.getLast?_concat]
  · have hlast : [a].filter (fun a => key a = k) = [] := by simp [hkey]
    rw [if_neg hkey, hlast, List.append_nil]

theorem lastWith_key (h : lastWith key added k = some a) : a ∈ added ∧ key a = k := by
  have hmem := List.mem_of_getLast? h
  rw [List.mem_filter] at hmem
  exact ⟨hmem.1, of_decide_eq_true hmem.2⟩

theorem isSome_lastWith : (lastWith key added k).isSome ↔ ∃ a ∈ added, key a = k := by
  constructor
  · intro h
    obtain ⟨a, ha⟩ := Option.isSome_iff_exists.mp h
    exact ⟨a, lastWith_key ha⟩
  · rintro ⟨a, ha, hkey⟩
    have hmem : a ∈ added.filter fun a => key a = k := List.mem_filter.mpr ⟨ha, decide_eq_true hkey⟩
    unfold lastWith
    rw [List.getLast?_eq_some_getLast (List.ne_nil_of_mem hmem)]
    rfl

/-- The map is what putting these values into the empty one gives. -/
def Replays (key : α → κ) (m : DescMap κ α) (added : List α) : Prop := ∀ k, m.find k = lastWith key added k

/-- Each of the values under its own key, one after the other. -/
def putAll (key : α → κ) (m : DescMap κ α) (added : List α) : DescMap κ α :=
  added.foldl (fun m a => m.insert (key a) a) m

namespace Replays

theorem empty : Replays key (empty : DescMap κ α) [] := fun _ => rfl

theorem insert (h : Replays key m added) (hkey : key a = k) : Replays key (m.insert k a) (added ++ [a]) := by
  intro k'
  rw [find_insert, lastWith_concat, hkey, h k']

theorem putAll (h : Replays key m added) (more : List α) : Replays key (m.putAll key more) (added ++ more) := by
  induction more generalizing m added with
  | nil => rwa [List.append_nil]
  | cons a more ih =>
    have hrest := ih (h.insert (a := a) rfl)
    rwa [List.append_assoc] at hrest

/-- Every value is under its own key. -/
theorem keyed (h : Replays key m added) : ∀ p ∈ m.toList, key p.2 = p.1 := by
  intro p hp
  have hfind : m.find p.1 = some p.2 := find_eq_some.mpr hp
  rw [h] at hfind
  exact (lastWith_key hfind).2

theorem isSome_find (h : Replays key m added) : (m.find k).isSome ↔ ∃ a ∈ added, key a = k := by
  rw [h, isSome_lastWith]

theorem first?_eq_some (h : Replays key m added) :
    m.first? = some (k, a) ↔ lastWith key added k = some a ∧ ∀ b ∈ added, key b ≤ k := by
  constructor
  · intro hfirst
    obtain ⟨hfind, hle⟩ := DescMap.first?_eq_some hfirst
    refine ⟨by rwa [← h k], fun b hb => ?_⟩
    obtain ⟨a', ha'⟩ := Option.isSome_iff_exists.mp (h.isSome_find.mpr ⟨b, hb, rfl⟩)
    exact hle _ _ ha'
  · rintro ⟨hlast, hle⟩
    refine first?_of_find (by rwa [h k]) fun k' a' hfind => ?_
    rw [h] at hfind
    obtain ⟨hmem, hkey⟩ := lastWith_key hfind
    rw [← hkey]
    exact hle a' hmem

theorem first?_eq_none (h : Replays key m added) : m.first? = none ↔ added = [] := by
  rw [DescMap.first?_eq_none]
  constructor
  · intro hempty
    rw [List.eq_nil_iff_forall_not_mem]
    intro a ha
    have hsome := h.isSome_find.mpr ⟨a, ha, rfl⟩
    rw [hempty, find_empty] at hsome
    cases hsome
  · rintro rfl
    exact DescMap.ext h

/-- The first key of the map is the greatest that was put in. -/
theorem first?_key (h : Replays key m added) : m.first?.map (·.1) = greatestKey key added := by
  unfold greatestKey
  rcases hfirst : m.first? with _ | ⟨k, a⟩
  · rw [h.first?_eq_none.mp hfirst]
    rfl
  · obtain ⟨hlast, hle⟩ := h.first?_eq_some.mp hfirst
    obtain ⟨hmem, hkey⟩ := lastWith_key hlast
    have hmax : (added.map key).max? = some k :=
      List.max?_eq_some_iff.mpr ⟨List.mem_map.mpr ⟨a, hmem, hkey⟩, List.forall_mem_map.mpr hle⟩
    rw [hmax]
    rfl

end Replays
end DescMap
