import Mathlib.Logic.Function.Basic
import Mathlib.Data.List.Basic

/-! Tables of file descriptors, with pipes, and what `pipe`, `dup2` and `close` do to them. -/
namespace Posix

/-- What a descriptor is open on. Pipes are told apart by their numbers. -/
inductive OpenFile (φ : Type) where
  | inherited (file : φ)
  | reader (pipe : Nat)
  | writer (pipe : Nat)
  deriving DecidableEq, Repr

/-- The descriptors of a process. `fork` copies them, and `exec` leaves them as they are. -/
abbrev Descriptors (φ : Type) := Nat → Option (OpenFile φ)

namespace Descriptors
variable {φ : Type}

def close (t : Descriptors φ) (fd : Nat) : Descriptors φ := Function.update t fd none

/-- `dup2` of a descriptor that is open. -/
def dup2 (t : Descriptors φ) (fd fd' : Nat) : Descriptors φ := Function.update t fd' (t fd)

/-- The lowest descriptor that is not open, unless there are as many as there may be. -/
def lowest (limit : Nat) (t : Descriptors φ) : Option Nat := (List.range limit).find? fun fd => (t fd).isNone

/-- `pipe`, for the pipe with this number: the descriptors of its two ends. -/
def pipe (limit : Nat) (t : Descriptors φ) (number : Nat) : Option (Nat × Nat × Descriptors φ) := do
  let reader ← lowest limit t
  let t := Function.update t reader (some (.reader number))
  let writer ← lowest limit t
  return (reader, writer, Function.update t writer (some (.writer number)))

/-- A process can use the file through one of its descriptors. -/
def Holds (t : Descriptors φ) (file : OpenFile φ) : Prop := ∃ fd, t fd = some file

theorem lowest_none {limit fd : Nat} {t : Descriptors φ} (h : lowest limit t = some fd) : t fd = none := by
  simpa using List.find?_some h

theorem pipe_spec {limit number reader writer : Nat} {t t' : Descriptors φ}
    (h : pipe limit t number = some (reader, writer, t')) :
    t reader = none ∧ t writer = none ∧ writer ≠ reader ∧
      t' = Function.update (Function.update t reader (some (.reader number))) writer (some (.writer number)) := by
  simp only [pipe, Option.bind_eq_bind, Option.bind_eq_some_iff, Option.pure_def, Option.some.injEq, Prod.mk.injEq] at h
  obtain ⟨r, hr, w, hw, rfl, rfl, rfl⟩ := h
  have hne : w ≠ r := by
    rintro rfl
    have := lowest_none hw
    rw [Function.update_self] at this
    cases this
  have hfree := lowest_none hw
  rw [Function.update_of_ne hne] at hfree
  exact ⟨lowest_none hr, hfree, hne, rfl⟩

end Descriptors
end Posix
