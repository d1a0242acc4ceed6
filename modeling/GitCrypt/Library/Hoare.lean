import Mathlib.Data.List.Basic

/-! Programs over a mutable state that may throw, and their Hoare triples. An exception
leaves the state as it was when it was thrown. -/

/-- A program over states `σ` that returns an `α` or throws an `ε`. -/
def Prog (σ ε α : Type) := σ → Except ε α × σ

namespace Prog
variable {σ ε α β : Type}

instance : Monad (Prog σ ε) where
  pure a s := (.ok a, s)
  bind m f s :=
    match m s with
    | (.ok a, s') => f a s'
    | (.error e, s') => (.error e, s')

instance : MonadExceptOf ε (Prog σ ε) where
  throw e s := (.error e, s)
  tryCatch m handler s :=
    match m s with
    | (.ok a, s') => (.ok a, s')
    | (.error e, s') => handler e s'

instance : MonadStateOf σ (Prog σ ε) where
  get s := (.ok s, s)
  set s _ := (.ok ⟨⟩, s)
  modifyGet f s := (.ok (f s).1, (f s).2)

@[simp] theorem pure_apply (a : α) (s : σ) : (pure a : Prog σ ε α) s = (.ok a, s) := rfl

theorem bind_apply (m : Prog σ ε α) (f : α → Prog σ ε β) (s : σ) :
    (m >>= f) s = match m s with
      | (.ok a, s') => f a s'
      | (.error e, s') => (.error e, s') := rfl

theorem bind_of_ok {m : Prog σ ε α} {s s' : σ} {a : α} (h : m s = (.ok a, s'))
    (f : α → Prog σ ε β) : (m >>= f) s = f a s' := by
  rw [bind_apply, h]

theorem bind_of_error {m : Prog σ ε α} {s s' : σ} {e : ε} (h : m s = (.error e, s'))
    (f : α → Prog σ ε β) : (m >>= f) s = (.error e, s') := by
  rw [bind_apply, h]

/-- A sequence that returns has returned from both of its parts. -/
theorem bind_ok {m : Prog σ ε α} {f : α → Prog σ ε β} {s s' : σ} {b : β} (h : (m >>= f) s = (.ok b, s')) :
    ∃ a s₁, m s = (.ok a, s₁) ∧ f a s₁ = (.ok b, s') := by
  rw [bind_apply] at h
  rcases hm : m s with ⟨e | a, s₁⟩ <;> rw [hm] at h
  · cases h
  · exact ⟨a, s₁, rfl, h⟩

theorem tryCatch_of_ok {m : Prog σ ε α} {s s' : σ} {a : α} (h : m s = (.ok a, s'))
    (handler : ε → Prog σ ε α) : tryCatch m handler s = (.ok a, s') := by
  change (match m s with
    | (.ok a, s') => (.ok a, s')
    | (.error e, s') => handler e s' : Except ε α × σ) = _
  rw [h]

theorem tryCatch_of_error {m : Prog σ ε α} {s s' : σ} {e : ε} (h : m s = (.error e, s'))
    (handler : ε → Prog σ ε α) : tryCatch m handler s = handler e s' := by
  change (match m s with
    | (.ok a, s') => (.ok a, s')
    | (.error e, s') => handler e s' : Except ε α × σ) = _
  rw [h]

theorem bind_pure_unit (m : Prog σ ε PUnit) : (m >>= fun _ => pure ⟨⟩) = m := by
  funext s
  rw [bind_apply]
  rcases m s with ⟨e | a, s'⟩ <;> rfl

/-- A program on the first part of a larger state. -/
def onFst {τ : Type} (m : Prog σ ε α) : Prog (σ × τ) ε α := fun s => ((m s.1).1, (m s.1).2, s.2)

theorem onFst_bind {τ : Type} (m : Prog σ ε α) (f : α → Prog (σ × τ) ε β) (s : σ) (t : τ) :
    (onFst m >>= f) (s, t) = match m s with
      | (.ok a, s') => f a (s', t)
      | (.error e, s') => (.error e, s', t) := by
  rw [bind_apply, onFst]
  rcases m s with ⟨e | a, s'⟩ <;> rfl

end Prog

/-- From a state in `P` the program returns into `Q` or throws into `E`. -/
def Triple {σ ε α : Type} (P : σ → Prop) (m : Prog σ ε α) (Q : α → σ → Prop) (E : ε → σ → Prop) :
    Prop :=
  ∀ s, P s → match m s with
    | (.ok a, s') => Q a s'
    | (.error e, s') => E e s'

namespace Triple
variable {σ ε α β : Type} {P P' : σ → Prop} {Q Q' : α → σ → Prop} {E E' : ε → σ → Prop}

theorem ok {m : Prog σ ε α} (h : Triple P m Q E) {s s' : σ} {a : α} (hs : P s)
    (hm : m s = (.ok a, s')) : Q a s' := by
  have := h s hs
  rwa [hm] at this

/-- The rule of consequence. -/
theorem weaken {m : Prog σ ε α} (h : Triple P m Q E) (hP : ∀ s, P' s → P s)
    (hQ : ∀ a s, Q a s → Q' a s) (hE : ∀ e s, E e s → E' e s) : Triple P' m Q' E' := by
  intro s hs
  have hm := h s (hP s hs)
  rcases hr : m s with ⟨e | a, s'⟩ <;> rw [hr] at hm
  · exact hE e s' hm
  · exact hQ a s' hm

theorem pre {m : Prog σ ε α} (h : Triple P m Q E) (hP : ∀ s, P' s → P s) : Triple P' m Q E :=
  h.weaken hP (fun _ _ => id) fun _ _ => id

theorem post {m : Prog σ ε α} (h : Triple P m Q E) (hQ : ∀ a s, Q a s → Q' a s) :
    Triple P m Q' E :=
  h.weaken (fun _ => id) hQ fun _ _ => id

theorem weakenError {m : Prog σ ε α} (h : Triple P m Q E) (hE : ∀ e s, E e s → E' e s) : Triple P m Q E' :=
  h.weaken (fun _ => id) (fun _ _ => id) hE

theorem conj {m : Prog σ ε α} (h : Triple P m Q E) (h' : Triple P' m Q' E') :
    Triple (fun s => P s ∧ P' s) m (fun a s => Q a s ∧ Q' a s) fun e s => E e s ∧ E' e s := by
  intro s hs
  have hm := h s hs.1
  have hm' := h' s hs.2
  rcases hr : m s with ⟨e | a, s'⟩ <;> rw [hr] at hm hm'
  · exact ⟨hm, hm'⟩
  · exact ⟨hm, hm'⟩

theorem and {m : Prog σ ε α} (h : Triple P m Q E) (h' : Triple P' m Q' E) :
    Triple (fun s => P s ∧ P' s) m (fun a s => Q a s ∧ Q' a s) E :=
  (h.conj h').weakenError fun _ _ he => he.1

/-- The assertion may fix the state it starts from. -/
theorem of_start {m : Prog σ ε α} (h : ∀ s₀, P s₀ → Triple (· = s₀) m Q E) : Triple P m Q E :=
  fun s hs => h s hs s rfl

/-- What does not depend on the state may be assumed beforehand. -/
theorem assuming {c : Prop} {m : Prog σ ε α} (h : c → Triple P m Q E) : Triple (fun s => P s ∧ c) m Q E :=
  fun s hs => h hs.2 s hs.1

theorem pure {a : α} (h : ∀ s, P s → Q a s) : Triple P (Pure.pure a) Q E := fun s hs => h s hs

theorem throw {e : ε} (h : ∀ s, P s → E e s) : Triple P (MonadExcept.throw e : Prog σ ε α) Q E :=
  fun s hs => h s hs

/-- The rule of sequence. -/
theorem bind {m : Prog σ ε α} {f : α → Prog σ ε β} {R : α → σ → Prop} {Q : β → σ → Prop}
    (hm : Triple P m R E) (hf : ∀ a, Triple (R a) (f a) Q E) : Triple P (m >>= f) Q E := by
  intro s hs
  have h := hm s hs
  rw [Prog.bind_apply]
  rcases hr : m s with ⟨e | a, s'⟩ <;> rw [hr] at h
  · exact h
  · exact hf a s' h

theorem ite {c : Prop} [Decidable c] {m m' : Prog σ ε α} (ht : c → Triple P m Q E)
    (hf : ¬ c → Triple P m' Q E) : Triple P (if c then m else m') Q E := by
  split_ifs with h
  · exact ht h
  · exact hf h

/-- What a thrown exception leaves is what its handler starts from. -/
theorem tryCatch {m : Prog σ ε α} {handler : ε → Prog σ ε α} {R : ε → σ → Prop}
    (hm : Triple P m Q R) (hh : ∀ e, Triple (R e) (handler e) Q E) :
    Triple P (MonadExcept.tryCatch m handler) Q E := by
  intro s hs
  have h := hm s hs
  change match (match m s with
    | (.ok a, s') => (.ok a, s')
    | (.error e, s') => handler e s' : Except ε α × σ) with
    | (.ok a, s') => Q a s'
    | (.error e, s') => E e s'
  rcases hr : m s with ⟨e | a, s'⟩ <;> rw [hr] at h
  · exact hh e s' h
  · exact h

/-- The loop rule: the invariant may say which elements have been treated. -/
theorem forM {l : List α} {f : α → Prog σ ε PUnit} (I : List α → σ → Prop)
    (h : ∀ done a, a ∈ l → Triple (I done) (f a) (fun _ => I (done ++ [a])) E) (done : List α) :
    Triple (I done) (ForM.forM l f) (fun _ => I (done ++ l)) E := by
  induction l generalizing done with
  | nil => exact pure fun s hs => by rwa [List.append_nil]
  | cons a l ih =>
    rw [List.forM_cons]
    refine bind (h done a (by simp)) fun _ => ?_
    have hrest := ih (fun done b hb => h done b (by simp [hb])) (done ++ [a])
    rwa [List.append_assoc, List.singleton_append] at hrest

/-- An invariant that does not depend on what has been treated. -/
theorem forM_keeps {l : List α} {f : α → Prog σ ε PUnit} {I : σ → Prop}
    (h : ∀ a ∈ l, Triple I (f a) (fun _ => I) E) : Triple I (ForM.forM l f) (fun _ => I) E :=
  forM (fun _ => I) (fun _ a ha => h a ha) []

/-- The frame rule: the other part of the state stays as it is. -/
theorem onFst {τ : Type} {m : Prog σ ε α} (h : Triple P m Q E) (R : τ → Prop) :
    Triple (fun s => P s.1 ∧ R s.2) (Prog.onFst m) (fun a s => Q a s.1 ∧ R s.2) fun e s => E e s.1 ∧ R s.2 := by
  rintro ⟨s, t⟩ ⟨hs, ht⟩
  have hm := h s hs
  unfold Prog.onFst
  dsimp only
  rcases hr : m s with ⟨e | a, s'⟩ <;> rw [hr] at hm
  · exact ⟨hm, ht⟩
  · exact ⟨hm, ht⟩

end Triple

namespace Triple
variable {σ ε α : Type}

/-- The assertion may name the state it starts from, and say what the run has been. -/
theorem of_run (m : Prog σ ε α) (s₀ : σ) :
    Triple (· = s₀) m (fun a s => m s₀ = (.ok a, s)) fun e s => m s₀ = (.error e, s) := by
  rintro s rfl
  rcases m s with ⟨e | a, s'⟩ <;> rfl

end Triple

/-- However it ends, the program maintains the invariant. -/
def Maintains {σ ε α : Type} (I : σ → Prop) (m : Prog σ ε α) : Prop := Triple I m (fun _ => I) fun _ => I

namespace Maintains
variable {σ ε α β : Type} {I : σ → Prop}

theorem pure (a : α) : Maintains I (Pure.pure a : Prog σ ε α) := Triple.pure fun _ => id

theorem throw (e : ε) : Maintains I (MonadExcept.throw e : Prog σ ε α) := Triple.throw fun _ => id

theorem bind {m : Prog σ ε α} {f : α → Prog σ ε β} (hm : Maintains I m) (hf : ∀ a, Maintains I (f a)) :
    Maintains I (m >>= f) :=
  Triple.bind hm hf

theorem ite {c : Prop} [Decidable c] {m m' : Prog σ ε α} (ht : c → Maintains I m) (hf : ¬ c → Maintains I m') :
    Maintains I (if c then m else m') :=
  Triple.ite ht hf

theorem forM {l : List α} {f : α → Prog σ ε PUnit} (h : ∀ a ∈ l, Maintains I (f a)) :
    Maintains I (ForM.forM l f) :=
  Triple.forM_keeps h

/-- Where the invariant holds at first, it holds in the end. -/
theorem of_run {m : Prog σ ε α} (h : Maintains I m) {s : σ} (hs : I s) : I (m s).2 := by
  have hm := h s hs
  rcases hr : m s with ⟨e | a, s'⟩ <;> rw [hr] at hm
  · exact hm
  · exact hm

end Maintains

/-- However it ends, the program leaves what `p` sees of the state as it was. -/
def Keeps {σ ε α τ : Type} (p : σ → τ) (m : Prog σ ε α) : Prop := ∀ s, p (m s).2 = p s

namespace Keeps
variable {σ ε α β τ : Type} {p : σ → τ}

theorem pure (a : α) : Keeps p (Pure.pure a : Prog σ ε α) := fun _ => rfl

theorem throw (e : ε) : Keeps p (MonadExcept.throw e : Prog σ ε α) := fun _ => rfl

theorem get : Keeps p (MonadState.get : Prog σ ε σ) := fun _ => rfl

theorem modify {f : σ → σ} (h : ∀ s, p (f s) = p s) :
    Keeps p (MonadStateOf.modifyGet (fun s => (PUnit.unit, f s)) : Prog σ ε PUnit) := h

theorem bind {m : Prog σ ε α} {f : α → Prog σ ε β} (hm : Keeps p m) (hf : ∀ a, Keeps p (f a)) :
    Keeps p (m >>= f) := by
  intro s
  have h := hm s
  rw [Prog.bind_apply]
  rcases hr : m s with ⟨e | a, s'⟩ <;> rw [hr] at h
  · exact h
  · exact (hf a s').trans h

theorem ite {c : Prop} [Decidable c] {m m' : Prog σ ε α} (ht : Keeps p m) (hf : Keeps p m') :
    Keeps p (if c then m else m') := by
  split_ifs
  · exact ht
  · exact hf

theorem tryCatch {m : Prog σ ε α} {handler : ε → Prog σ ε α} (hm : Keeps p m)
    (hh : ∀ e, Keeps p (handler e)) : Keeps p (MonadExcept.tryCatch m handler) := by
  intro s
  have h := hm s
  change p (match m s with
    | (.ok a, s') => (.ok a, s')
    | (.error e, s') => handler e s' : Except ε α × σ).2 = p s
  rcases hr : m s with ⟨e | a, s'⟩ <;> rw [hr] at h
  · exact (hh e s').trans h
  · exact h

theorem forM {l : List α} {f : α → Prog σ ε PUnit} (h : ∀ a, Keeps p (f a)) :
    Keeps p (ForM.forM l f) := by
  induction l with
  | nil => exact pure _
  | cons a l ih => exact bind (h a) fun _ => ih

/-- Whatever holds of what is kept still holds. -/
theorem triple {m : Prog σ ε α} (h : Keeps p m) (I : τ → Prop) : Maintains (fun s => I (p s)) m := by
  intro s hs
  have hk := h s
  rw [← hk] at hs
  rcases hr : m s with ⟨e | a, s'⟩ <;> rw [hr] at hs
  · exact hs
  · exact hs

end Keeps
