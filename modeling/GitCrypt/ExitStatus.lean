import GitCrypt.Composition
import GitCrypt.Main

/-! How the program ends: its exit status, and which command lines it refuses. -/
namespace GitCrypt
open Iostream Posix Prog
variable {σ α : Type} {env : Env} {genv : GitEnv}

/-- A step of `status`. -/
inductive IndexOperation (env : Env) (genv : GitEnv) : ∀ α : Type, StatusAction α → Prop
  | world {α : Type} {m : Action α} (h : Operation env Set.univ α m) : IndexOperation env genv α (onFst m)
  | execIndexCommand (command : IndexCommand) :
    IndexOperation env genv (Nat × Bytes) (execIndexCommand env genv command)

theorem IndexOperation.handled {m : StatusAction α} (hm : IndexOperation env genv α m) {s s' : World × GitState}
    {e : Exception} (h : m s = (.error e, s')) : Handled e := by
  cases hm with
  | world hm => exact hm.handled (of_onFst h)
  | execIndexCommand command =>
    unfold GitCrypt.execIndexCommand at h
    dsimp only at h
    split_ifs at h <;> cases h

abbrev IndexSteps (env : Env) (genv : GitEnv) (m : StatusAction α) : Prop :=
  Composed (IndexOperation env genv) Handled m

theorem Steps.onFst {m : Action α} (h : Steps env Set.univ m) : IndexSteps env genv (Prog.onFst m) :=
  Composed.onFst h .world

/-- Whatever operations throw has a handler, and so has what a program made of them throws. -/
theorem Composed.handled {op : ∀ α : Type, Prog σ Exception α → Prop} {m : Prog σ Exception α}
    (h : Composed op Handled m)
    (hop : ∀ {α : Type} {m : Prog σ Exception α} {s s' : σ} {e : Exception},
      op α m → m s = (.error e, s') → Handled e)
    {s s' : σ} {e : Exception} (hrun : m s = (.error e, s')) : Handled e := by
  have htriple := h.triple (I := fun _ => True) fun {α m} hm s _ => by
    rcases hrun : m s with ⟨e | a, s'⟩
    · exact ⟨hop hm hrun, trivial⟩
    · trivial
  have hs := htriple s trivial
  rw [hrun] at hs
  exact hs.1

/-- The rest of a command once its arguments are accepted: the exit status is 0 or 1. -/
structure Proceeds (op : ∀ α : Type, Prog σ Exception α → Prop) (m : Prog σ Exception Nat) : Prop where
  steps : Composed op Handled m
  status : ∀ {s n s'}, m s = (.ok n, s') → n ≤ 1

namespace Proceeds
variable {op : ∀ α : Type, Prog σ Exception α → Prop}

theorem pure {n : Nat} (h : n ≤ 1) : Proceeds op (Pure.pure n) := by
  refine ⟨.pure n, fun hrun => ?_⟩
  cases hrun
  exact h

theorem throw {e : Exception} (h : Handled e) : Proceeds op (MonadExcept.throw e) :=
  ⟨.throw h, fun hrun => by cases hrun⟩

theorem bind {m : Prog σ Exception α} {f : α → Prog σ Exception Nat} (hm : Composed op Handled m)
    (hf : ∀ a, Proceeds op (f a)) : Proceeds op (m >>= f) := by
  refine ⟨.bind hm fun a => (hf a).steps, fun hrun => ?_⟩
  obtain ⟨a, s₁, -, hrun⟩ := bind_ok hrun
  exact (hf a).status hrun

theorem ite {c : Prop} [Decidable c] {m m' : Prog σ Exception Nat} (ht : Proceeds op m) (hf : Proceeds op m') :
    Proceeds op (if c then m else m') := by
  split_ifs
  · exact ht
  · exact hf

theorem tryCatch {m : Prog σ Exception Nat} {handler : Exception → Prog σ Exception Nat} (hm : Proceeds op m)
    (hop : ∀ {α : Type} {m : Prog σ Exception α} {s s' : σ} {e : Exception},
      op α m → m s = (.error e, s') → Handled e) (hh : ∀ e, Handled e → Proceeds op (handler e)) :
    Proceeds op (MonadExcept.tryCatch m handler) := by
  refine ⟨.tryCatch hm.steps fun e he => (hh e he).steps, fun {s n s'} hrun => ?_⟩
  rcases hm' : m s with ⟨e | a, s₁⟩
  · rw [tryCatch_of_error hm'] at hrun
    exact (hh e (Composed.handled hm.steps hop hm')).status hrun
  · rw [tryCatch_of_ok hm'] at hrun
    cases hrun
    exact hm.status hm'

theorem leave {status : Nat} (h : status ≤ 1) (lines : List Bytes) : Proceeds (Operation env Set.univ) (leave status lines) :=
  .bind (logLines_steps lines) fun _ => .pure h

theorem onFst {m : Action Nat} (h : Proceeds (Operation env Set.univ) m) :
    Proceeds (IndexOperation env genv) (Prog.onFst m) :=
  ⟨Steps.onFst h.steps, fun hrun => h.status (of_onFst hrun)⟩

end Proceeds

/-! ### The filters -/

/-- The run of a filter ends with 0 or 1, or at the limit of the cipher. -/
def FilterRun.Ends (run : FilterRun) : Prop := (∃ n ≤ 1, run.ending = .ok n) ∨ run.ending = .error tooMuchData

theorem process_error {P : Primitives} {c c' : AesCtrEncryptor} {bytes : Bytes} {e : Exception}
    (h : c.process P bytes = (c', .error e)) : e = tooMuchData := by
  induction bytes generalizing c c' with
  | nil => cases h
  | cons b bytes ih =>
    rw [AesCtrEncryptor.process] at h
    dsimp only at h
    split_ifs at h
    · cases h
      rfl
    · split at h <;> cases h
      exact ih ‹_›

/-- Nothing has stopped the output but the limit of the cipher. -/
def CtrOutput.Limited (o : CtrOutput) : Prop := ∀ e, o.thrown = some e → e = tooMuchData

theorem CtrOutput.Limited.send {P : Primitives} {o : CtrOutput} (h : o.Limited) (buffer : Bytes) :
    (o.send P buffer).Limited := by
  intro e he
  unfold CtrOutput.send at he
  split at he
  · exact h e he
  · cases he
    exact process_error ‹_›

theorem CtrOutput.Limited.finish {o : CtrOutput} (h : o.Limited) {status : Nat} (hle : status ≤ 1)
    (clog : List String) : (o.finish status clog).Ends := by
  unfold FilterRun.Ends CtrOutput.finish
  cases hthrown : o.thrown with
  | none => exact .inl ⟨status, hle, rfl⟩
  | some e => exact .inr (congrArg Except.error (h e hthrown))

theorem FilterRun.Ends.perform {run : FilterRun} (h : run.Ends) : Proceeds (Operation env Set.univ) run.perform := by
  have hwrite : Steps env Set.univ (modify fun w =>
      { w with cout := w.cout.append run.cout, clog := w.clog ++ run.clog.map str } : Action Unit) :=
    .op (.modify fun _ => ⟨rfl, rfl, rfl⟩)
  rcases h with ⟨n, hn, hending⟩ | hending
  · refine (?_ : run.perform = (_ >>= fun _ => Pure.pure n)) ▸ .bind hwrite fun _ => .pure hn
    funext w
    rw [FilterRun.perform, hending]
    rfl
  · refine (?_ : run.perform = (_ >>= fun _ => MonadExcept.throw tooMuchData)) ▸ .bind hwrite fun _ => .throw trivial
    funext w
    rw [FilterRun.perform, hending]
    rfl

/-! ### The commands -/

section
variable (vars : StatusOptions) (totals : StatusTotals) (filename objectId : Bytes)

end

/-! ### The arguments -/

/-- Refused with a message, or not. -/
def Settled (run : Invoked → StatusAction Nat) : Prop :=
  (∃ lines, ∀ i, run i = onFst (leave 2 lines)) ∨ ∀ i, Proceeds (IndexOperation i.env i.genv) (run i)

end GitCrypt
