import Mathlib.Logic.Relation
import Mathlib.Order.Basic

/-! Agents with states of their own, which act one at a time, in any order, on their own state and
on what is known to all of them. What is known only grows. -/
namespace Network
variable {ι κ σ : Type} [DecidableEq ι]

/-- What is known, and the state of each agent. -/
structure State (ι κ σ : Type) where
  known : κ
  states : ι → σ

variable {act : ι → κ × σ → κ × σ → Prop} {s s' : State ι κ σ}

/-- One agent acts. -/
inductive Step (act : ι → κ × σ → κ × σ → Prop) : State ι κ σ → State ι κ σ → Prop
  | acts {s : State ι κ σ} {i : ι} {known : κ} {state : σ} (h : act i (s.known, s.states i) (known, state)) :
    Step act s ⟨known, Function.update s.states i state⟩

/-- The agents act as often as they like. -/
abbrev Run (act : ι → κ × σ → κ × σ → Prop) : State ι κ σ → State ι κ σ → Prop := Relation.ReflTransGen (Step act)

/-- Of what is known one thing holds, and of each agent's state another. -/
def Holds (K : κ → Prop) (I : ι → κ → σ → Prop) (s : State ι κ σ) : Prop :=
  K s.known ∧ ∀ i, I i s.known (s.states i)

section
variable [Preorder κ] {K : κ → Prop} {I : ι → κ → σ → Prop}
  (hmono : ∀ i known known' state, known ≤ known' → I i known state → I i known' state)
  (hact : ∀ i s s', act i s s' → K s.1 → I i s.1 s.2 → s.1 ≤ s'.1 ∧ K s'.1 ∧ I i s'.1 s'.2)
include hmono hact

theorem Step.holds (h : Step act s s') (hs : Holds K I s) : s.known ≤ s'.known ∧ Holds K I s' := by
  cases h with
  | @acts i known state h =>
    obtain ⟨hle, hknown, hstate⟩ := hact _ _ _ h hs.1 (hs.2 i)
    refine ⟨hle, hknown, fun j => ?_⟩
    dsimp only
    by_cases hj : j = i
    · subst hj
      rwa [Function.update_self]
    · rw [Function.update_of_ne hj]
      exact hmono _ _ _ _ hle (hs.2 j)

/-- The rule: it is enough to look at the agent that acts, as the others only come to know more. -/
theorem Run.holds (h : Run act s s') (hs : Holds K I s) : s.known ≤ s'.known ∧ Holds K I s' := by
  induction h with
  | refl => exact ⟨le_rfl, hs⟩
  | tail _ hstep ih =>
    obtain ⟨hle, hholds⟩ := ih
    obtain ⟨hle', hholds'⟩ := hstep.holds hmono hact hholds
    exact ⟨hle.trans hle', hholds'⟩

end

end Network
