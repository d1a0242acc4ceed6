import GitCrypt.Library.Hoare

/-! Programs put together from some operations. What every operation maintains, every such program
maintains, and it throws nothing that they do not throw. -/
namespace Prog
variable {σ τ ε α β : Type}

/-- The program runs one operation after the other, may throw the exceptions in `S` itself, and may
catch them. -/
inductive Composed (op : ∀ α : Type, Prog σ ε α → Prop) (S : ε → Prop) : ∀ {α : Type}, Prog σ ε α → Prop
  | op {α : Type} {m : Prog σ ε α} (h : op α m) : Composed op S m
  | pure {α : Type} (a : α) : Composed op S (Pure.pure a)
  | throw {α : Type} {e : ε} (h : S e) : Composed op S (MonadExcept.throw e : Prog σ ε α)
  /-- `R` holds of what `m` returns. -/
  | bindOf {α β : Type} {m : Prog σ ε α} {f : α → Prog σ ε β} {R : α → Prop} (hm : Composed op S m)
    (hR : ∀ {s a s'}, m s = (.ok a, s') → R a) (hf : ∀ a, R a → Composed op S (f a)) : Composed op S (m >>= f)
  | tryCatch {α : Type} {m : Prog σ ε α} {handler : ε → Prog σ ε α} (hm : Composed op S m)
    (hh : ∀ e, S e → Composed op S (handler e)) : Composed op S (MonadExcept.tryCatch m handler)

theorem of_onFst {m : Prog σ ε α} {s s' : σ × τ} {res : Except ε α} (h : onFst m s = (res, s')) :
    m s.1 = (res, s'.1) := by
  have hvalue := congrArg Prod.fst h
  have hstate := congrArg (fun r : Except ε α × σ × τ => r.2.1) h
  exact Prod.ext hvalue hstate

theorem onFst_bind_onFst (m : Prog σ ε α) (f : α → Prog σ ε β) :
    onFst (m >>= f) = (onFst m >>= fun a => onFst (f a) : Prog (σ × τ) ε β) := by
  funext s
  rw [onFst_bind, onFst, bind_apply]
  rcases m s.1 with ⟨e | a, s'⟩ <;> rfl

theorem onFst_tryCatch (m : Prog σ ε α) (handler : ε → Prog σ ε α) :
    onFst (MonadExcept.tryCatch m handler) =
      (MonadExcept.tryCatch (onFst m) fun e => onFst (handler e) : Prog (σ × τ) ε α) := by
  funext s
  rcases hm : m s.1 with ⟨e | a, s'⟩
  · have hfst : (onFst m : Prog (σ × τ) ε α) s = (.error e, s', s.2) := by rw [onFst, hm]
    rw [onFst, tryCatch_of_error hm, tryCatch_of_error hfst]
    rfl
  · have hfst : (onFst m : Prog (σ × τ) ε α) s = (.ok a, s', s.2) := by rw [onFst, hm]
    rw [onFst, tryCatch_of_ok hm, tryCatch_of_ok hfst]

namespace Composed
variable {op : ∀ α : Type, Prog σ ε α → Prop} {op' : ∀ α : Type, Prog (σ × τ) ε α → Prop} {S : ε → Prop}

theorem bind {m : Prog σ ε α} {f : α → Prog σ ε β} (hm : Composed op S m) (hf : ∀ a, Composed op S (f a)) :
    Composed op S (m >>= f) :=
  @bindOf _ _ op S _ _ m f (fun _ => True) hm (fun _ => trivial) fun a _ => hf a

theorem ite {c : Prop} [Decidable c] {m m' : Prog σ ε α} (ht : Composed op S m) (hf : Composed op S m') :
    Composed op S (if c then m else m') := by
  split_ifs
  · exact ht
  · exact hf

theorem forM {l : List α} {f : α → Prog σ ε PUnit} (h : ∀ a, Composed op S (f a)) :
    Composed op S (ForM.forM l f) := by
  induction l with
  | nil => exact pure _
  | cons a l ih => exact bind (h a) fun _ => ih

/-- The rule: what holds after each operation holds after the program. -/
theorem triple {I : σ → Prop} {m : Prog σ ε α} (h : Composed op S m)
    (hop : ∀ {α : Type} {m : Prog σ ε α}, op α m → Triple I m (fun _ => I) fun e s => S e ∧ I s) :
    Triple I m (fun _ => I) fun e s => S e ∧ I s := by
  induction h with
  | op h => exact hop h
  | pure a => exact Triple.pure fun _ => id
  | throw he => exact Triple.throw fun _ hs => ⟨he, hs⟩
  | @bindOf _ _ m f R _ hR _ ihm ihf =>
    have hvalue : Triple I m (fun a s => I s ∧ R a) fun e s => S e ∧ I s := by
      intro s hs
      have hm := ihm s hs
      rcases hrun : m s with ⟨e | a, s'⟩ <;> rw [hrun] at hm
      · exact hm
      · exact ⟨hm, hR hrun⟩
    exact hvalue.bind fun a => .assuming (ihf a)
  | @tryCatch _ m handler _ _ ihm ihh =>
    refine ihm.tryCatch fun e s hs => ?_
    exact ihh e hs.1 s hs.2

/-- On a larger state. -/
theorem onFst {m : Prog σ ε α} (h : Composed op S m)
    (hop : ∀ {α : Type} {m : Prog σ ε α}, op α m → op' α (Prog.onFst m)) : Composed op' S (Prog.onFst m) := by
  induction h with
  | op h => exact .op (hop h)
  | pure a => exact .pure a
  | throw he => exact .throw he
  | @bindOf _ _ m f R _ hR _ ihm ihf =>
    rw [onFst_bind_onFst]
    exact .bindOf ihm (fun hrun => hR (of_onFst hrun)) ihf
  | tryCatch _ _ ihm ihh =>
    rw [onFst_tryCatch]
    exact .tryCatch ihm ihh

end Composed
end Prog
