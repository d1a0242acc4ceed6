import Mathlib.Data.List.Basic

/-! A block of memory: loading a run of cells, and storing over one. -/

/-- A block of `size` cells. -/
structure Memory (α : Type) where
  size : Nat
  cells : Nat → α

namespace Memory
variable {α β : Type} {m : Memory α} {start first n k : Nat} {bytes : List α}

/-- The `n` cells from `start` on. -/
def load (m : Memory α) (start : Nat) : Nat → List α
  | 0 => []
  | n + 1 => m.cells start :: load m (start + 1) n

/-- The block with `bytes` written over the cells from `start` on. -/
def store (m : Memory α) (start : Nat) (bytes : List α) : Memory α :=
  { m with cells := fun i => if i < start then m.cells i else (bytes[i - start]?).getD (m.cells i) }

/-- The run of `n` cells from `start` lies in the block. -/
def Inside (m : Memory α) (start n : Nat) : Prop := start + n ≤ m.size

instance : Decidable (m.Inside start n) := inferInstanceAs (Decidable (start + n ≤ m.size))

@[simp] theorem store_size : (m.store start bytes).size = m.size := rfl

@[simp] theorem length_load : (m.load start n).length = n := by
  induction n generalizing start with
  | zero => rfl
  | succ n ih => rw [load, List.length_cons, ih]

theorem load_congr {m m' : Memory α} (h : ∀ i, start ≤ i → i < start + n → m.cells i = m'.cells i) :
    m.load start n = m'.load start n := by
  induction n generalizing start with
  | zero => rfl
  | succ n ih =>
    have hfirst := h start (by omega) (by omega)
    have hrest := @ih (start + 1) fun i hi hn => h i (by omega) (by omega)
    rw [load, load, hfirst, hrest]

theorem load_add : m.load start (k + n) = m.load start k ++ m.load (start + k) n := by
  induction k generalizing start with
  | zero => rw [Nat.zero_add]; rfl
  | succ k ih =>
    have hrest := @ih (start + 1)
    rw [show start + 1 + k = start + (k + 1) by omega] at hrest
    rw [show k + 1 + n = (k + n) + 1 by omega, load, load, hrest, List.cons_append]

theorem load_one : m.load start 1 = [m.cells start] := rfl

theorem store_nil : m.store start [] = m := by
  rw [store]
  congr 1
  funext i
  rw [List.getElem?_nil, Option.getD_none, ite_self]

/-- A run that does not meet the written cells is as it was. -/
theorem load_store_other (h : first + n ≤ start ∨ start + bytes.length ≤ first) :
    (m.store start bytes).load first n = m.load first n := by
  apply load_congr
  intro i hi hn
  change (if i < start then m.cells i else (bytes[i - start]?).getD (m.cells i)) = m.cells i
  split_ifs with his
  · rfl
  · rw [List.getElem?_eq_none (by omega), Option.getD_none]

/-- The written cells hold what was written. -/
theorem load_store_same : (m.store start bytes).load start bytes.length = bytes := by
  induction bytes generalizing m start with
  | nil => rfl
  | cons a bytes ih =>
    have hfirst : (m.store start (a :: bytes)).cells start = a := by simp [store]
    have hrest : (m.store start (a :: bytes)).load (start + 1) bytes.length =
        (m.store (start + 1) bytes).load (start + 1) bytes.length := by
      apply load_congr
      intro i hi hn
      have hpos : i - start = (i - (start + 1)) + 1 := by omega
      simp only [store, if_neg (show ¬ i < start by omega), if_neg (show ¬ i < start + 1 by omega)]
      rw [hpos, List.getElem?_cons_succ]
    rw [List.length_cons, load, hfirst, hrest, ih]

/-- Two runs written one behind the other are one run. -/
theorem store_append (more : List α) :
    (m.store start bytes).store (start + bytes.length) more = m.store start (bytes ++ more) := by
  simp only [store, Memory.mk.injEq, true_and]
  funext i
  by_cases hi : i < start
  · rw [if_pos hi, if_pos hi, if_pos (Nat.lt_add_right _ hi)]
  · rw [if_neg hi, if_neg hi]
    by_cases hfirst : i < start + bytes.length
    · rw [if_pos hfirst, List.getElem?_append_left (by omega)]
    · rw [if_neg hfirst, List.getElem?_append_right (by omega),
        List.getElem?_eq_none (show bytes.length ≤ i - start by omega), Option.getD_none, Nat.sub_sub]

/-- The same block with every cell changed by `g`. -/
def map (g : α → β) (m : Memory α) : Memory β := ⟨m.size, fun i => g (m.cells i)⟩

theorem map_load (g : α → β) : (m.map g).load start n = (m.load start n).map g := by
  induction n generalizing start with
  | zero => rfl
  | succ n ih => rw [load, load, List.map_cons, ih]; rfl

theorem map_store (g : α → β) : (m.store start bytes).map g = (m.map g).store start (bytes.map g) := by
  simp only [map, store, List.getElem?_map]
  congr 1
  funext i
  split_ifs with h
  · rfl
  · cases bytes[i - start]? with
    | none => rfl
    | some a => rfl

end Memory
