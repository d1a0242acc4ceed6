import Mathlib.Logic.Relation
import Mathlib.Data.Nat.Basic

/-! What every run of a system comes to, whichever of its steps is taken at each turn. -/
namespace Inevitability
open Relation

/-- Every run comes to a state with `p`: none stops before it, and none goes on without it
for ever. -/
inductive Inevitable {σ : Type} (step : σ → σ → Prop) (p : σ → Prop) : σ → Prop
  | now {s : σ} (h : p s) : Inevitable step p s
  | later {s : σ} (hlive : ∃ t, step s t) (h : ∀ t, step s t → Inevitable step p t) : Inevitable step p s

namespace Inevitable
variable {σ : Type} {step : σ → σ → Prop} {p q : σ → Prop} {s t : σ}

theorem trans (h : Inevitable step p s) (hq : ∀ t, p t → Inevitable step q t) : Inevitable step q s := by
  induction h with
  | now hp => exact hq _ hp
  | later hlive _ ih => exact later hlive ih

/-- An invariant with a measure: until `p` there is a step, and each step keeps the invariant
with a smaller measure. -/
theorem of_measure {inv : Nat → σ → Prop} (hlive : ∀ n s, inv n s → ¬ p s → ∃ t, step s t)
    (hstep : ∀ n s t, inv n s → step s t → ∃ m < n, inv m t) {n : Nat} (hs : inv n s) : Inevitable step p s := by
  induction n using Nat.strongRecOn generalizing s with
  | _ n ih =>
    by_cases hp : p s
    · exact now hp
    · refine later (hlive n s hs hp) fun t ht => ?_
      obtain ⟨m, hlt, hinv⟩ := hstep n s t hs ht
      exact ih m hlt hinv

/-- A run without end comes to it. -/
theorem of_run (h : Inevitable step p s) {run : Nat → σ} (hrun : ∀ n, step (run n) (run (n + 1)))
    (hstart : run 0 = s) : ∃ n, p (run n) := by
  induction h generalizing run with
  | now hp => exact ⟨0, hstart ▸ hp⟩
  | later hlive _ ih =>
    have hfirst := hrun 0
    rw [hstart] at hfirst
    obtain ⟨n, hn⟩ := @ih (run 1) hfirst (fun n => run (n + 1)) (fun n => hrun (n + 1)) rfl
    exact ⟨n + 1, hn⟩

/-- Where nothing goes on from `p`, a run that stops has stopped there. -/
theorem of_stuck (h : Inevitable step p s) (hend : ∀ s t, p s → ¬ step s t) (hrun : ReflTransGen step s t)
    (hstuck : ∀ u, ¬ step t u) : p t := by
  induction h with
  | now hp =>
    rcases hrun.cases_head with rfl | ⟨u, hu, -⟩
    · exact hp
    · exact absurd hu (hend _ _ hp)
  | later hlive _ ih =>
    rcases hrun.cases_head with rfl | ⟨u, hu, hrest⟩
    · obtain ⟨u, hu⟩ := hlive
      exact absurd hu (hstuck u)
    · exact ih u hu hrest

end Inevitable
end Inevitability
