import GitCrypt.Library.Composed
import GitCrypt.Main
import GitCrypt.Seen

/-! Processes of the program: what `main` runs, and what is left when it has ended. -/
namespace GitCrypt
open Iostream Posix Prog
variable {P : Primitives} {argv0 : Bytes} {i : Invoked}

/-- The command that `main` is told to run, with the command's arguments. -/
def commandLine : List Bytes → Option (Bytes × List Bytes)
  | [] => none
  | arg :: rest =>
    if arg.head? ≠ some 45 then some (arg, rest)
    else if arg = str "--" then rest.head?.map fun command => (command, rest.tail)
    else none

/-- Where the handler of the command leads to what messages do not touch, `main` leads there. -/
theorem main_leads {I J : World × GitState → Prop} {args : List Bytes} (hstart : ∀ s, I s → J s)
    (hlog : ∀ s lines, J s → J ({ s.1 with clog := s.1.clog ++ lines }, s.2))
    (h : ∀ command rest m, commandLine args = some (command, rest) → handler P argv0 i command rest = some m →
      Triple I m (fun _ => J) fun _ => J) : Triple I (main P argv0 i args) (fun _ => J) fun _ => J := by
  have hleave (status : Nat) (lines : List Bytes) : Maintains J (onFst (leave status lines)) :=
    fun s hs => hlog s lines hs
  have hcommand (command : Bytes) (rest : List Bytes) (hc : commandLine args = some (command, rest)) :
      Triple I (runCommand P argv0 i command rest) (fun _ => J) fun _ => J := by
    unfold runCommand
    split
    · exact (hleave _ _).pre hstart
    · rename_i m hm
      refine Triple.tryCatch (h command rest m hc hm) fun e => ?_
      cases e with
      | optionError => exact hleave _ _
      | _ => exact Maintains.throw _
  have hbody : Triple I (mainBody P argv0 i args) (fun _ => J) fun _ => J := by
    cases args with
    | nil => exact (hleave _ _).pre hstart
    | cons arg rest =>
      unfold commandLine at hcommand
      refine .ite (fun hfirst => hcommand arg rest (if_pos hfirst)) fun hoption => .ite (fun _ => (hleave _ _).pre hstart)
        fun _ => .ite (fun _ => (hleave _ _).pre hstart) fun _ => .ite (fun hend => ?_) fun _ => (hleave _ _).pre hstart
      dsimp only at hcommand
      rw [if_neg hoption, if_pos hend] at hcommand
      cases rest with
      | nil => exact (hleave _ _).pre hstart
      | cons command rest => exact hcommand command rest rfl
  refine Triple.tryCatch (R := fun _ => J) hbody fun e => ?_
  cases e with
  | optionError => exact Maintains.throw _
  | invalidArgument => exact Maintains.throw _
  | _ => exact hleave _ _

section
variable {args rest : List Bytes} {command : Bytes} {m : StatusAction Nat} {s s' : World × GitState}
  (hc : commandLine args = some (command, rest)) (hm : handler P argv0 i command rest = some m)
include hc hm

theorem mainBody_eq : mainBody P argv0 i args = tryCatch m (catchOptionError command) := by
  have hrun : runCommand P argv0 i command rest = tryCatch m (catchOptionError command) := by
    unfold runCommand
    rw [hm]
  rw [← hrun]
  cases args with
  | nil => cases hc
  | cons arg tail =>
    unfold commandLine at hc
    unfold mainBody
    dsimp only at hc ⊢
    by_cases hfirst : arg.head? ≠ some 45
    · rw [if_pos hfirst] at hc ⊢
      cases hc
      rfl
    · rw [if_neg hfirst] at hc ⊢
      split_ifs at hc with hend
      rw [if_neg (by rw [hend]; decide), if_neg (by rw [hend]; decide), if_pos hend]
      cases tail with
      | nil => cases hc
      | cons first tail =>
        cases hc
        rfl

theorem main_of_ok {status : Nat} (h : m s = (.ok status, s')) : main P argv0 i args s = (.ok status, s') := by
  rw [main, mainBody_eq hc hm, tryCatch_of_ok (tryCatch_of_ok h _)]

/-- What a command throws ends in another status than 0, after a message. -/
theorem main_of_error {e : Exception} (h : m s = (.error e, s')) : (main P argv0 i args s).1 ≠ .ok 0 ∧
    ∃ clog, (main P argv0 i args s).2 = ({ s'.1 with clog }, s'.2) := by
  have hinner : tryCatch m (catchOptionError command) s = catchOptionError command e s' := tryCatch_of_error h _
  rw [main, mainBody_eq hc hm]
  cases e with
  | optionError =>
    rw [tryCatch_of_ok (hinner.trans rfl)]
    exact ⟨nofun, _, rfl⟩
  | _ =>
    rw [tryCatch_of_error (hinner.trans rfl)]
    exact ⟨nofun, _, rfl⟩

/-- The exit status is 0 only where the command has returned it. -/
private theorem main_of_zero (h : main P argv0 i args s = (.ok 0, s')) : m s = (.ok 0, s') := by
  rcases hresult : m s with ⟨e | status, t⟩
  · exact absurd (congrArg Prod.fst h) (main_of_error hc hm hresult).1
  · rw [main_of_ok hc hm hresult] at h
    exact h

end

/-- A process of the program. -/
structure Process where
  invoked : Invoked
  argv0 : Bytes
  args : List Bytes

/-- The exit status, and the state that the process ends in. -/
def Process.run (P : Primitives) (p : Process) (s : Repo × GitState) : Except Exception Nat × World × GitState :=
  main P p.argv0 p.invoked p.args (s.1.start p.invoked.env, s.2)

section
variable {J : World → Prop} {w : World}

theorem onFst_leads {m : Action Nat} (h : Triple (· = w) m (fun _ => J) fun _ => J) :
    Triple (fun t => t.1 = w) (onFst m : StatusAction Nat) (fun _ t => J t.1) fun _ t => J t.1 :=
  (Triple.onFst h fun _ => True).weaken (fun _ ht => ⟨ht, trivial⟩) (fun _ _ ht => ht.1) fun _ _ ht => ht.1

/-- Where a process leads to in its own world. -/
theorem Process.leads (P : Primitives) {p : Process} {s : Repo × GitState} (hstart : J (s.1.start p.invoked.env))
    (hlog : ∀ w lines, J w → J { w with clog := w.clog ++ lines })
    (h : ∀ command rest m, commandLine p.args = some (command, rest) →
      handler P p.argv0 p.invoked command rest = some m →
        Triple (fun t => t.1 = s.1.start p.invoked.env) m (fun _ t => J t.1) fun _ t => J t.1) :
    J (p.run P s).2.1 := by
  have hmain := main_leads (fun t ht => ht ▸ hstart) (fun t lines => hlog t.1 lines) h (s.1.start p.invoked.env, s.2) rfl
  unfold Process.run
  rcases hresult : main P p.argv0 p.invoked p.args (s.1.start p.invoked.env, s.2) with ⟨e | status, t⟩ <;>
    rw [hresult] at hmain <;> exact hmain

/-- A process that ends with 0 has run its command to the end. -/
theorem Process.run_of_zero {P : Primitives} {p : Process} {command : Bytes} {args : List Bytes} {m : Action Nat}
    {s : Repo × GitState} (hc : commandLine p.args = some (command, args))
    (hm : handler P p.argv0 p.invoked command args = some (onFst m)) (hzero : (p.run P s).1 = .ok 0) :
    m (s.1.start p.invoked.env) = (.ok 0, (p.run P s).2.1) :=
  of_onFst (main_of_zero hc hm (Prod.ext hzero rfl))

/-- How a process ends whose command does not look at the index. -/
theorem Process.ends (P : Primitives) {p : Process} {command : Bytes} {args : List Bytes} {m : Action Nat}
    {Q : Nat → World → Prop} {E : Exception → World → Prop} {s : Repo × GitState}
    (hc : commandLine p.args = some (command, args)) (hm : handler P p.argv0 p.invoked command args = some (onFst m))
    (h : Triple (· = s.1.start p.invoked.env) m Q E) :
    (∃ status, (p.run P s).1 = .ok status ∧ Q status (p.run P s).2.1) ∨
      (p.run P s).1 ≠ .ok 0 ∧ ∃ e w clog, E e w ∧ (p.run P s).2.1 = { w with clog } := by
  have hrun := h (s.1.start p.invoked.env) rfl
  unfold Process.run
  rcases hresult : m (s.1.start p.invoked.env) with ⟨e | status, w⟩ <;> rw [hresult] at hrun
  · have honfst : (onFst m : StatusAction Nat) (s.1.start p.invoked.env, s.2) = (.error e, w, s.2) := by
      rw [onFst, hresult]
    obtain ⟨hstatus, clog, hafter⟩ := main_of_error hc hm honfst
    exact .inr ⟨hstatus, e, w, clog, hrun, congrArg Prod.fst hafter⟩
  · have honfst : (onFst m : StatusAction Nat) (s.1.start p.invoked.env, s.2) = (.ok status, w, s.2) := by
      rw [onFst, hresult]
    rw [main_of_ok hc hm honfst]
    exact .inl ⟨status, rfl, hrun⟩

end

end GitCrypt
