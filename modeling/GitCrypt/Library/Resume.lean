import Mathlib.Order.Basic

/-! Making what is missing, one thing after the other, in states that only grow. What is there is
passed over, so that a run that was interrupted is taken up by the next one. -/
namespace Resume
variable {σ α : Type} [Preorder σ]

/-- How a thing is made, when it is there, and where the making of it may stop. -/
structure Maker (σ α : Type) [Preorder σ] where
  has : σ → α → Bool
  make : α → σ → Option σ
  begun : α → σ → σ → Prop
  has_mono {a : α} {s s' : σ} : s ≤ s' → has s a = true → has s' a = true
  le_of_make {a : α} {s s' : σ} : make a s = some s' → s ≤ s'
  has_of_make {a : α} {s s' : σ} : make a s = some s' → has s' a = true
  le_of_begun {a : α} {s mid : σ} : begun a s mid → s ≤ mid
  eq_of_begun {a : α} {s mid : σ} : begun a s mid → has s a = true → mid = s
  /-- What was begun is made as if it had not been. -/
  make_of_begun {a : α} {s mid s' : σ} : begun a s mid → make a s = some s' → make a mid = some s' ∧ mid ≤ s'
  missing_of_begun {a : α} {s mid s' : σ} : begun a s mid → make a s = some s' → has mid a = false

namespace Maker
variable (M : Maker σ α)

/-- One thing is made unless it is there. -/
def ensure (a : α) (s : σ) : Option (List α × σ) :=
  if M.has s a then some ([], s) else (M.make a s).map ([a], ·)

/-- The things that were missing, and the state with all of them. -/
def run : List α → σ → Option (List α × σ)
  | [], s => some ([], s)
  | a :: l, s => do
    let (made, s₁) ← M.ensure a s
    let (rest, s') ← run l s₁
    return (made ++ rest, s')

/-- A run over the list stopped on its way: what it had made, and the state it left. -/
inductive Interrupted : List α → σ → List α → σ → Prop
  | here {a : α} {l : List α} {s mid : σ} : M.begun a s mid → Interrupted (a :: l) s [] mid
  | later {a : α} {l made rest : List α} {s s₁ mid : σ} : M.ensure a s = some (made, s₁) →
      Interrupted l s₁ rest mid → Interrupted (a :: l) s (made ++ rest) mid

variable {M} {a : α} {l made new : List α} {s s' mid : σ}

theorem ensure_of_has (h : M.has s a = true) : M.ensure a s = some ([], s) := if_pos h

theorem ensure_of_missing (h : M.has s a = false) : M.ensure a s = (M.make a s).map ([a], ·) := by
  rw [ensure, h, if_neg Bool.false_ne_true]

theorem ensure_cases (h : M.ensure a s = some (made, s')) :
    M.has s a = true ∧ made = [] ∧ s' = s ∨ M.has s a = false ∧ made = [a] ∧ M.make a s = some s' := by
  cases hs : M.has s a with
  | true =>
    rw [ensure_of_has hs] at h
    cases h
    exact .inl ⟨rfl, rfl, rfl⟩
  | false =>
    rw [ensure_of_missing hs, Option.map_eq_some_iff] at h
    obtain ⟨made', hmake, he⟩ := h
    cases he
    exact .inr ⟨rfl, rfl, hmake⟩

theorem le_of_ensure (h : M.ensure a s = some (made, s')) : s ≤ s' := by
  rcases ensure_cases h with ⟨-, -, rfl⟩ | ⟨-, -, hmake⟩
  · exact le_refl _
  · exact M.le_of_make hmake

theorem has_of_ensure (h : M.ensure a s = some (made, s')) : M.has s' a = true := by
  rcases ensure_cases h with ⟨hs, -, rfl⟩ | ⟨-, -, hmake⟩
  · exact hs
  · exact M.has_of_make hmake

theorem run_cons_eq_none {made : List α} {s₁ : σ} (he : M.ensure a s = some (made, s₁)) (hr : M.run l s₁ = none) :
    M.run (a :: l) s = none := by
  rw [run, he]
  exact congrArg (Option.bind · _) hr

theorem run_cons : M.run (a :: l) s = some (new, s') ↔ ∃ made s₁ rest, M.ensure a s = some (made, s₁) ∧
    M.run l s₁ = some (rest, s') ∧ new = made ++ rest := by
  rw [run]
  constructor
  · intro h
    obtain ⟨⟨made, s₁⟩, he, h⟩ := Option.bind_eq_some_iff.mp h
    obtain ⟨⟨rest, s₂⟩, hr, h⟩ := Option.bind_eq_some_iff.mp h
    cases h
    exact ⟨made, s₁, rest, he, hr, rfl⟩
  · rintro ⟨made, s₁, rest, he, hr, rfl⟩
    rw [he]
    change (M.run l s₁).bind _ = _
    rw [hr]
    rfl

theorem le_of_run (h : M.run l s = some (new, s')) : s ≤ s' := by
  induction l generalizing s new with
  | nil =>
    cases h
    exact le_refl _
  | cons a l ih =>
    obtain ⟨made, s₁, rest, he, hr, -⟩ := run_cons.mp h
    exact (le_of_ensure he).trans (ih hr)

/-- Afterwards everything is there. -/
theorem has_of_run (h : M.run l s = some (new, s')) : ∀ a ∈ l, M.has s' a = true := by
  induction l generalizing s new with
  | nil => simp
  | cons a l ih =>
    obtain ⟨made, s₁, rest, he, hr, -⟩ := run_cons.mp h
    rw [List.forall_mem_cons]
    exact ⟨M.has_mono (le_of_run hr) (has_of_ensure he), ih hr⟩

private theorem missing_mono (h : s ≤ s') (hm : M.has s' a = false) : M.has s a = false := by
  rw [← Bool.not_eq_true] at hm ⊢
  exact fun hs => hm (M.has_mono h hs)

/-- Only what was missing is made. -/
theorem missing_of_run (h : M.run l s = some (new, s')) : ∀ a ∈ new, M.has s a = false := by
  induction l generalizing s new with
  | nil =>
    cases h
    simp
  | cons a l ih =>
    obtain ⟨made, s₁, rest, he, hr, rfl⟩ := run_cons.mp h
    intro b hb
    rcases List.mem_append.mp hb with hb | hb
    · rcases ensure_cases he with ⟨-, rfl, -⟩ | ⟨hs, rfl, -⟩
      · cases hb
      · rwa [List.mem_singleton.mp hb]
    · exact missing_mono (le_of_ensure he) (ih hr b hb)

/-- Where everything is there, nothing happens. -/
theorem run_of_has (h : ∀ a ∈ l, M.has s a = true) : M.run l s = some ([], s) := by
  induction l with
  | nil => rfl
  | cons a l ih =>
    rw [List.forall_mem_cons] at h
    exact run_cons.mpr ⟨[], s, [], ensure_of_has h.1, ih h.2, rfl⟩

/-- Where nothing was made, everything was there. -/
theorem eq_of_run_nil (h : M.run l s = some ([], s')) : s' = s := by
  induction l generalizing s with
  | nil =>
    cases h
    rfl
  | cons a l ih =>
    obtain ⟨made, s₁, rest, he, hr, hnil⟩ := run_cons.mp h
    obtain ⟨rfl, rfl⟩ := List.append_eq_nil_iff.mp hnil.symm
    rcases ensure_cases he with ⟨-, -, rfl⟩ | ⟨-, hne, -⟩
    · exact ih hr
    · cases hne

theorem Interrupted.le (h : M.Interrupted l s made mid) : s ≤ mid := by
  induction h with
  | here hb => exact M.le_of_begun hb
  | later he _ ih => exact (le_of_ensure he).trans ih

theorem Interrupted.has (h : M.Interrupted l s made mid) : ∀ a ∈ made, M.has mid a = true := by
  induction h with
  | here _ => simp
  | @later a _ _ _ _ _ _ he hrest ih =>
    intro b hb
    rcases List.mem_append.mp hb with hb | hb
    · refine M.has_mono hrest.le ?_
      rcases ensure_cases he with ⟨-, rfl, -⟩ | ⟨-, rfl, -⟩
      · cases hb
      · rw [List.mem_singleton.mp hb]
        exact has_of_ensure he
    · exact ih b hb

/-- As long as nothing was made, something was at most begun. -/
theorem Interrupted.begun (h : M.Interrupted l s [] mid) : ∃ a ∈ l, M.begun a s mid := by
  generalize hmade : ([] : List α) = made at h
  induction h with
  | here hb => exact ⟨_, by simp, hb⟩
  | later he _ ih =>
    obtain ⟨rfl, rfl⟩ := List.append_eq_nil_iff.mp hmade.symm
    rcases ensure_cases he with ⟨-, -, rfl⟩ | ⟨-, hne, -⟩
    · obtain ⟨b, hb, hbegun⟩ := ih rfl
      exact ⟨b, by simp [hb], hbegun⟩
    · cases hne

/-- The next run makes exactly what is left, and ends where the run would have ended. -/
theorem Interrupted.resumes (h : M.Interrupted l s made mid) (hrun : M.run l s = some (new, s')) :
    mid ≤ s' ∧ ∃ left, new = made ++ left ∧ M.run l mid = some (left, s') := by
  induction h generalizing new with
  | @here a l s mid hb =>
    obtain ⟨made, s₁, rest, he, hr, rfl⟩ := run_cons.mp hrun
    rcases ensure_cases he with ⟨hs, rfl, rfl⟩ | ⟨-, rfl, hmake⟩
    · obtain rfl := M.eq_of_begun hb hs
      exact ⟨le_of_run hr, _, rfl, hrun⟩
    · obtain ⟨hmid, hle⟩ := M.make_of_begun hb hmake
      refine ⟨hle.trans (le_of_run hr), _, rfl, run_cons.mpr ⟨[a], s₁, rest, ?_, hr, rfl⟩⟩
      rw [ensure_of_missing (M.missing_of_begun hb hmake), hmid]
      rfl
  | @later a l made rest s s₁ mid he hrest ih =>
    obtain ⟨made', s₂, new', he', hr, rfl⟩ := run_cons.mp hrun
    obtain ⟨rfl, rfl⟩ := Prod.ext_iff.mp (Option.some.inj (he.symm.trans he'))
    obtain ⟨hle, left, rfl, hleft⟩ := ih hr
    refine ⟨hle, left, (List.append_assoc _ _ _).symm, run_cons.mpr ⟨[], mid, left, ?_, hleft, rfl⟩⟩
    exact ensure_of_has (M.has_mono hrest.le (has_of_ensure he))

end Maker
end Resume
