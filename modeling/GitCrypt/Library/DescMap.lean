import Mathlib.Order.Lattice
import Mathlib.Data.List.Basic
import Mathlib.Data.List.Pairwise
import Mathlib.Order.Basic

/-! Finite maps kept as a list of entries with strictly descending keys, the shape of a
`std::map` ordered by `std::greater`: the first entry is the one with the greatest key. -/

/-- The order is a field, so two maps with the same lookups are the same map. -/
structure DescMap (κ α : Type) [LinearOrder κ] where
  toList : List (κ × α)
  sorted : toList.Pairwise fun a b => b.1 < a.1
  deriving DecidableEq

namespace DescMap
variable {κ α : Type} [LinearOrder κ]

def empty : DescMap κ α := ⟨[], .nil⟩

/-- The `n` entries with the greatest keys. -/
def take (m : DescMap κ α) (n : Nat) : DescMap κ α :=
  ⟨m.toList.take n, m.sorted.sublist (List.take_sublist n m.toList)⟩

private def lookup (k : κ) : List (κ × α) → Option α
  | [] => none
  | (k', a) :: rest => if k' = k then some a else lookup k rest

private def insertEntry (k : κ) (a : α) : List (κ × α) → List (κ × α)
  | [] => [(k, a)]
  | (k', a') :: rest =>
    if k' < k then (k, a) :: (k', a') :: rest
    else if k' = k then (k, a) :: rest
    else (k', a') :: insertEntry k a rest

/-- `map::find`. -/
def find (m : DescMap κ α) (k : κ) : Option α := lookup k m.toList

private theorem mem_insertEntry {k : κ} {a : α} {l : List (κ × α)} {p : κ × α}
    (h : p ∈ insertEntry k a l) : p = (k, a) ∨ p ∈ l := by
  induction l with
  | nil => simpa [insertEntry] using h
  | cons q l ih =>
    unfold insertEntry at h
    split_ifs at h <;> simp only [List.mem_cons] at h ⊢ <;> tauto

private theorem insertEntry_sorted (k : κ) (a : α) {l : List (κ × α)}
    (h : l.Pairwise fun a b => b.1 < a.1) :
    (insertEntry k a l).Pairwise fun a b => b.1 < a.1 := by
  induction l with
  | nil => simp [insertEntry]
  | cons q l ih =>
    obtain ⟨hq, hl⟩ := List.pairwise_cons.mp h
    unfold insertEntry
    split_ifs with h1 h2
    · refine List.pairwise_cons.mpr ⟨?_, h⟩
      intro p hp
      rcases List.mem_cons.mp hp with rfl | hp
      · exact h1
      · exact (hq p hp).trans h1
    · exact List.pairwise_cons.mpr ⟨fun p hp => h2 ▸ hq p hp, hl⟩
    · refine List.pairwise_cons.mpr ⟨?_, ih hl⟩
      intro p hp
      rcases mem_insertEntry hp with rfl | hp
      · exact lt_of_le_of_ne (not_lt.mp h1) (Ne.symm h2)
      · exact hq p hp

/-- `map::operator[]` followed by an assignment: a key present keeps its place. -/
def insert (m : DescMap κ α) (k : κ) (a : α) : DescMap κ α :=
  ⟨insertEntry k a m.toList, insertEntry_sorted k a m.sorted⟩

/-- `map::begin`, the entry with the greatest key. -/
def first? (m : DescMap κ α) : Option (κ × α) := m.toList.head?

private theorem lookup_insertEntry (k k' : κ) (a : α) (l : List (κ × α)) :
    lookup k' (insertEntry k a l) = if k = k' then some a else lookup k' l := by
  induction l with
  | nil => simp [insertEntry, lookup]
  | cons q l ih =>
    unfold insertEntry
    split_ifs with h1 h2 h3 h4 <;> simp_all [lookup]

@[simp] theorem find_empty (k : κ) : (empty : DescMap κ α).find k = none := rfl

theorem find_insert (m : DescMap κ α) (k k' : κ) (a : α) :
    (m.insert k a).find k' = if k = k' then some a else m.find k' :=
  lookup_insertEntry k k' a m.toList

private theorem lookup_eq_some {k : κ} {a : α} {l : List (κ × α)}
    (h : l.Pairwise fun a b => b.1 < a.1) : lookup k l = some a ↔ (k, a) ∈ l := by
  induction l with
  | nil => simp [lookup]
  | cons q l ih =>
    obtain ⟨hq, hl⟩ := List.pairwise_cons.mp h
    obtain ⟨k', a'⟩ := q
    by_cases hk : k' = k
    · subst hk
      have hn : (k', a) ∉ l := fun hm => lt_irrefl k' (hq (k', a) hm)
      simp [lookup, hn, eq_comm]
    · simp [lookup, hk, ih hl, Ne.symm hk]

theorem find_eq_some {m : DescMap κ α} {k : κ} {a : α} :
    m.find k = some a ↔ (k, a) ∈ m.toList :=
  lookup_eq_some m.sorted

theorem mem_insert {m : DescMap κ α} {k : κ} {a : α} {p : κ × α}
    (h : p ∈ (m.insert k a).toList) : p = (k, a) ∨ p ∈ m.toList :=
  mem_insertEntry h

/-- Strictly ordered lists with the same members are equal. -/
private theorem toList_ext {l l' : List (κ × α)} (h : l.Pairwise fun a b => b.1 < a.1)
    (h' : l'.Pairwise fun a b => b.1 < a.1) (he : ∀ p, p ∈ l ↔ p ∈ l') : l = l' := by
  have hn : ∀ {l : List (κ × α)}, (l.Pairwise fun a b => b.1 < a.1) → l.Nodup := by
    intro l hl
    refine hl.imp ?_
    rintro a b hab rfl
    exact lt_irrefl _ hab
  have hp := (List.perm_ext_iff_of_nodup (hn h) (hn h')).mpr he
  exact hp.eq_of_pairwise (fun _ _ _ _ hab hba => (lt_asymm hab hba).elim) h h'

@[ext] theorem ext {m m' : DescMap κ α} (h : ∀ k, m.find k = m'.find k) : m = m' := by
  have he : m.toList = m'.toList := by
    refine toList_ext m.sorted m'.sorted fun p => ?_
    rw [← find_eq_some (k := p.1) (a := p.2), h, find_eq_some]
  cases m; cases m'; simpa using he

/-- At most one entry has a given key, the one `find` returns. -/
theorem filter_key (m : DescMap κ α) (k : κ) :
    m.toList.filter (·.1 = k) = ((m.find k).map (k, ·)).toList := by
  obtain ⟨l, h⟩ := m
  change l.filter _ = ((lookup k l).map (k, ·)).toList
  induction l with
  | nil => rfl
  | cons q l ih =>
    obtain ⟨hq, hl⟩ := List.pairwise_cons.mp h
    by_cases hk : q.1 = k
    · subst hk
      have hn : l.filter (·.1 = q.1) = [] := by
        rw [List.filter_eq_nil_iff]
        intro p hp
        simpa using (hq p hp).ne
      rw [List.filter_cons_of_pos (by simp), hn]
      simp [lookup]
    · rw [List.filter_cons_of_neg (by simpa using hk), ih hl]
      simp [lookup, hk]

theorem first?_eq_none {m : DescMap κ α} : m.first? = none ↔ m = empty := by
  cases m with
  | mk l h => simp [first?, empty]

/-- The first entry is found under its key, and no key present is greater. -/
theorem first?_eq_some {m : DescMap κ α} {k : κ} {a : α} (h : m.first? = some (k, a)) :
    m.find k = some a ∧ ∀ k' a', m.find k' = some a' → k' ≤ k := by
  obtain ⟨tail, ht⟩ := List.head?_eq_some_iff.mp h
  have hs := ht ▸ m.sorted
  refine ⟨find_eq_some.mpr (by simp [ht]), fun k' a' hf => ?_⟩
  rw [find_eq_some, ht, List.mem_cons] at hf
  rcases hf with he | hm
  · exact (congrArg Prod.fst he).le
  · exact ((List.pairwise_cons.mp hs).1 _ hm).le

theorem first?_of_find {m : DescMap κ α} {k : κ} {a : α} (h : m.find k = some a)
    (hmax : ∀ k' a', m.find k' = some a' → k' ≤ k) : m.first? = some (k, a) := by
  cases hf : m.first? with
  | none =>
    rw [first?_eq_none.mp hf] at h
    cases h
  | some p =>
    obtain ⟨hp, hle⟩ := first?_eq_some (k := p.1) (a := p.2) hf
    have hk : p.1 = k := le_antisymm (hmax _ _ hp) (hle _ _ h)
    rw [hk, h] at hp
    rw [Option.some.inj hp, ← hk]

end DescMap
