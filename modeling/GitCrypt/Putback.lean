import GitCrypt.InputStream

/-! The putback area of an `ifhbuf`: when the bytes from `eback` to `gptr` are those delivered last. -/
namespace GitCrypt
namespace Ifhbuf
variable {ω ε α : Type} {f : ReadFun ω ε α} {s : Ifhbuf ω α} {c : α}

/-! ### Stepping back -/

/-- `std::streambuf::sungetc`, with the default `pbackfail`. -/
def sungetc : Call ω ε α (Option α) := do
  let s ← get
  if s.eback < s.gptr then
    modify fun s => { s with gptr := s.gptr - 1 }
    nextCharacter
  else return none

/-- What up to `n` steps back return. -/
def stepBack : Nat → Call ω ε α (List α)
  | 0 => return []
  | n + 1 => do
    match ← sungetc with
    | none => return []
    | some c =>
      let bytes ← stepBack n
      return c :: bytes

private theorem sungetc_run (hsize : s.gptr ≤ s.buffer.size) (hback : s.eback < s.gptr) :
    (sungetc : Call ω ε α (Option α)) s =
      (.ok (some (s.buffer.cells (s.gptr - 1))), { s with gptr := s.gptr - 1 }) := by
  have hin : s.buffer.Inside (s.gptr - 1) 1 := by
    change s.gptr - 1 + 1 ≤ s.buffer.size
    omega
  change (if s.eback < s.gptr then _ else _ : Call ω ε α (Option α)) s = _
  rw [if_pos hback]
  change (loadFrom (s.gptr - 1) 1 >>= fun bytes => pure bytes.head?) { s with gptr := s.gptr - 1 } = _
  rw [Prog.bind_of_ok (loadFrom_ok (s := { s with gptr := s.gptr - 1 }) hin)]
  rfl

private theorem stepBack_run (n : Nat) (hsize : s.gptr ≤ s.buffer.size) (hback : n ≤ s.gptr - s.eback) :
    (stepBack n : Call ω ε α (List α)) s =
      (.ok (s.buffer.load (s.gptr - n) n).reverse, { s with gptr := s.gptr - n }) := by
  induction n generalizing s with
  | zero => rfl
  | succ n ih =>
    have hrest := @ih { s with gptr := s.gptr - 1 } (show s.gptr - 1 ≤ s.buffer.size by omega)
      (show n ≤ s.gptr - 1 - s.eback by omega)
    have hload : (s.buffer.load (s.gptr - (n + 1)) (n + 1)).reverse =
        s.buffer.cells (s.gptr - 1) :: (s.buffer.load (s.gptr - 1 - n) n).reverse := by
      rw [Memory.load_add, List.reverse_append, Memory.load_one, show s.gptr - (n + 1) = s.gptr - 1 - n by omega,
        show s.gptr - 1 - n + n = s.gptr - 1 by omega]
      rfl
    change (sungetc >>= _) s = _
    rw [Prog.bind_of_ok (sungetc_run hsize (by omega))]
    change (stepBack n >>= _) _ = _
    rw [Prog.bind_of_ok hrest, hload, show s.gptr - (n + 1) = s.gptr - 1 - n by omega]
    rfl

/-- Stepping back over the whole putback area returns the bytes delivered last, in reverse order. -/
def StepsBack (ε : Type) (s : Ifhbuf ω α) : Prop :=
  ∃ last s', last <:+ s.delivered ∧ last.length = s.gptr - s.eback ∧
    (stepBack (s.gptr - s.eback) : Call ω ε α (List α)) s = (.ok last.reverse, s')

private theorem stepsBack_iff (h : s.Wf) : StepsBack ε s ↔ s.Putback := by
  have horder := h.order
  have hsize := h.egptr
  have heback := h.eback
  have hgptr := h.gptr
  have hrun := stepBack_run (ε := ε) (s.gptr - s.eback) (show s.gptr ≤ s.buffer.size by omega) (Nat.le_refl _)
  rw [show s.gptr - (s.gptr - s.eback) = s.eback by omega] at hrun
  constructor
  · rintro ⟨last, s', hlast, hlength, hback⟩
    rw [hrun] at hback
    have hsame : s.putbackArea.reverse = last.reverse := Except.ok.inj (congrArg Prod.fst hback)
    rw [Putback, List.reverse_injective hsame]
    exact hlast
  · intro hp
    exact ⟨s.putbackArea, _, hp, Memory.length_load, hrun⟩

/-! ### Runs -/

/-- The state after the calls, made by a reader that goes on after an exception. -/
def after (f : ReadFun ω ε α) (ops : List Op) (s : Ifhbuf ω α) : Ifhbuf ω α :=
  ops.foldl (fun s op => (perform f op s).2) s

/-- The condition holds for each of the calls. -/
def RunSafe (f : ReadFun ω ε α) : List Op → Ifhbuf ω α → Prop
  | [], _ => True
  | op :: ops, s => OpSafe f s op ∧ RunSafe f ops (perform f op s).2

theorem perform_putback (f : ReadFun ω ε α) (op : Op) (h : s.Wf) :
    (perform f op s).2.Wf ∧ (s.Putback → ((perform f op s).2.Putback ↔ OpSafe f s op)) := by
  have hperformed := perform_performed f op h
  generalize perform f op s = r at hperformed
  cases hperformed with
  | done bytes s' hdelivers hp => exact ⟨hdelivers.wf, hp⟩
  | threw e s' hwf hthrows hp => exact ⟨hwf, hp⟩

theorem after_wf (f : ReadFun ω ε α) (ops : List Op) (h : s.Wf) : (after f ops s).Wf := by
  induction ops generalizing s with
  | nil => exact h
  | cons op ops ih => exact ih (perform_putback f op h).1

private theorem after_putback (f : ReadFun ω ε α) (ops : List Op) (h : s.Wf) (hp : s.Putback) :
    (∀ done, done <+: ops → (after f done s).Putback) ↔ RunSafe f ops s := by
  induction ops generalizing s with
  | nil =>
    refine iff_of_true (fun done hdone => ?_) trivial
    rw [List.prefix_nil.mp hdone]
    exact hp
  | cons op ops ih =>
    obtain ⟨hwf, hone⟩ := perform_putback f op h
    constructor
    · intro hall
      have hfirst : (perform f op s).2.Putback := hall [op] (by simp)
      refine ⟨(hone hp).mp hfirst, (ih hwf hfirst).mp fun done hdone => ?_⟩
      exact hall (op :: done) ((List.prefix_cons_inj op).mpr hdone)
    · rintro ⟨hsafe, hrest⟩ done hdone
      have hfirst : (perform f op s).2.Putback := (hone hp).mpr hsafe
      cases done with
      | nil => exact hp
      | cons op' done =>
        obtain ⟨hop, htail⟩ := List.cons_prefix_cons.mp hdone
        subst hop
        exact (ih hwf hfirst).mpr hrest done htail

private theorem create_putback (source : Source ω α) (cells : Nat → α) :
    (create source cells).Putback := List.nil_suffix

/-- In every state of a run the bytes from `eback` to `gptr` are those delivered last, and stepping
back returns them in reverse order, just when each underflow that gets nothing, at the end of the
source or by an exception, moves bytes in front of the buffer that are there already. -/
theorem putback_iff (f : ReadFun ω ε α) (source : Source ω α) (cells : Nat → α) (ops : List Op) :
    (∀ done, done <+: ops → (after f done (create source cells)).Putback ∧
      StepsBack ε (after f done (create source cells))) ↔ RunSafe f ops (create source cells) := by
  rw [← after_putback f ops (create_wf source cells) (create_putback source cells)]
  constructor
  · exact fun h done hdone => (h done hdone).1
  · intro h done hdone
    have hwf := after_wf f done (create_wf source cells)
    exact ⟨h done hdone, (stepsBack_iff hwf).mpr (h done hdone)⟩

/-- Eight bytes in chunks of six and two: once the end has been met, the first two of the six bytes to
step back over are not those delivered. -/
theorem peek_spoils_putback :
    ∃ s, after (givingUpTo 6 (by decide)) [.read 8, .peek]
        (create ⟨(), [97, 98, 99, 100, 101, 102, 103, 104]⟩ fun _ => (0 : Nat)) = s ∧
      s.putbackArea = [101, 102, 103, 104, 103, 104] ∧
      s.delivered = [97, 98, 99, 100, 101, 102, 103, 104] ∧ ¬ s.Putback := by
  refine ⟨_, rfl, ?_, ?_, fun hputback => ?_⟩
  · decide +kernel
  · decide +kernel
  · unfold Putback at hputback
    revert hputback
    decide +kernel

end Ifhbuf
end GitCrypt
