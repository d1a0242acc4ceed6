import Mathlib.Algebra.GroupWithZero.Nat
import Mathlib.Order.Lattice
import GitCrypt.Library.IStream

/-! Loops that take a stream or a buffer in pieces of a fixed size, each with a state, a
guard tested before every turn, and one rule: an invariant over the bytes consumed so far
that every turn keeps holds at the end. -/
namespace Iostream
variable {σ : Type}

/-- `while (in && guard) { in.read(buffer, n); body }`. The body sees the bytes that were
read, none at the end of the stream. -/
def readWhile (n : Nat) [NeZero n] (guard : σ → Bool) (body : σ → List UInt8 → σ) (s : IStream)
    (st : σ) : σ :=
  if _h : s.ok = true ∧ guard st = true then
    readWhile n guard body (s.read n).2 (body st (s.read n).1)
  else st
termination_by s.todo
decreasing_by exact IStream.todo_read_lt _h.1 (Nat.pos_of_neZero n)

/-- `while (in.peek() != -1) { in.read(buffer, n); body }`, left early when the guard
fails. -/
def readUntilEof (n : Nat) [NeZero n] (guard : σ → Bool) (body : σ → List UInt8 → σ) (s : IStream)
    (st : σ) : σ :=
  if _h : guard st = true ∧ s.peek.1.isSome = true then
    readUntilEof n guard body (s.peek.2.read n).2 (body st (s.peek.2.read n).1)
  else st
termination_by s.rest.length
decreasing_by exact IStream.peek_read_lt _h.2 (Nat.pos_of_neZero n)

theorem drop_shorter (n : Nat) [NeZero n] {bytes : List UInt8} (h : bytes ≠ []) :
    (bytes.drop n).length < bytes.length := by
  have := List.length_pos_iff.mpr h
  have := Nat.pos_of_neZero n
  rw [List.length_drop]
  omega

/-- `while (len > 0) { take the first n bytes; body }`, left early when the guard fails. -/
def forSlices (n : Nat) [NeZero n] (guard : σ → Bool) (body : σ → List UInt8 → σ)
    (data : List UInt8) (st : σ) : σ :=
  if _h : data ≠ [] ∧ guard st = true then
    forSlices n guard body (data.drop n) (body st (data.take n))
  else st
termination_by data.length
decreasing_by exact drop_shorter n _h.1

section Rules
variable {n : Nat} [NeZero n] {guard : σ → Bool} {body : σ → List UInt8 → σ}

/-- What a loop over `bytes` ends with: it has consumed a first part of them, for which
the invariant holds, and either that is all or the guard has failed. -/
def Consumes (Inv : List UInt8 → σ → Prop) (guard : σ → Bool) (consumed bytes : List UInt8)
    (st : σ) : Prop :=
  ∃ part rest, bytes = part ++ rest ∧ Inv (consumed ++ part) st ∧ (rest = [] ∨ guard st = false)

variable {Inv : List UInt8 → σ → Prop} {consumed : List UInt8} {st : σ}

theorem Consumes.nil (h : Inv consumed st) : Consumes Inv guard consumed [] st :=
  ⟨[], [], rfl, by simpa using h, Or.inl rfl⟩

theorem Consumes.stop {bytes : List UInt8} (h : Inv consumed st) (hg : ¬ guard st = true) :
    Consumes Inv guard consumed bytes st :=
  ⟨[], bytes, rfl, by simpa using h, Or.inr (by simpa using hg)⟩

omit [NeZero n] in
/-- One turn takes the first `n` bytes. -/
theorem Consumes.step {bytes : List UInt8}
    (h : Consumes Inv guard (consumed ++ bytes.take n) (bytes.drop n) st) :
    Consumes Inv guard consumed bytes st := by
  obtain ⟨part, rest, hb, hinv, hend⟩ := h
  refine ⟨bytes.take n ++ part, rest, ?_, by rwa [← List.append_assoc], hend⟩
  rw [List.append_assoc, ← hb, List.take_append_drop]

variable (hstep : ∀ consumed st chunk, Inv consumed st → guard st = true → chunk.length ≤ n →
  Inv (consumed ++ chunk) (body st chunk))
include hstep

theorem forSlices_invariant {data : List UInt8} (h : Inv consumed st) :
    Consumes Inv guard consumed data (forSlices n guard body data st) := by
  induction hm : data.length using Nat.strongRecOn generalizing data consumed st with
  | ind m ih =>
    subst hm
    rw [forSlices]
    split_ifs with hc
    · have hinv := hstep consumed st (data.take n) h hc.2 (by simp)
      exact (ih _ (drop_shorter n hc.1) hinv rfl).step
    · by_cases hd : data = []
      · exact hd ▸ .nil h
      · exact .stop h fun hb => hc ⟨hd, hb⟩

/-- From a good stream, `readWhile` turns over the bytes of the stream. -/
theorem readWhile_invariant {s : IStream} (hs : s.good = true) (h : Inv consumed st) :
    Consumes Inv guard consumed s.rest (readWhile n guard body s st) := by
  induction hm : s.rest.length using Nat.strongRecOn generalizing s consumed st with
  | ind m ih =>
    subst hm
    rw [readWhile]
    split_ifs with hc
    · have hinv := hstep consumed st (s.rest.take n) h hc.2 (by simp)
      rw [IStream.read_of_good hs]
      apply Consumes.step (n := n)
      by_cases hl : s.rest.length < n
      · -- a short read fails the stream, which ends the loop
        rw [readWhile, dif_neg (by simp [IStream.ok, hl]), List.drop_of_length_le hl.le]
        exact .nil hinv
      · have hgood : (s.read n).2.good = true := (IStream.read_good_iff hs n).mpr (not_lt.mp hl)
        rw [IStream.read_of_good hs] at hgood
        have hpos := Nat.pos_of_neZero n
        exact ih _ (drop_shorter n (List.length_pos_iff.mp (by omega))) hgood hinv rfl
    · exact .stop h fun hb => hc ⟨IStream.ok_of_good hs, hb⟩

/-- From a good stream, `readUntilEof` turns over the bytes of the stream. -/
theorem readUntilEof_invariant {s : IStream} (hs : s.good = true) (h : Inv consumed st) :
    Consumes Inv guard consumed s.rest (readUntilEof n guard body s st) := by
  induction hm : s.rest.length using Nat.strongRecOn generalizing s consumed st with
  | ind m ih =>
    subst hm
    rw [readUntilEof]
    by_cases hne : s.rest = []
    · rw [hne, dif_neg (by simp [(IStream.peek_none_iff hs).mpr hne])]
      exact .nil h
    split_ifs with hc
    · have hs' : ({ s with gcount := 0 } : IStream).good = true := hs
      have hinv := hstep consumed st (s.rest.take n) h hc.1 (by simp)
      rw [IStream.peek_of_cons hs hne, IStream.read_of_good hs']
      apply Consumes.step (n := n)
      by_cases hl : s.rest.length < n
      · rw [readUntilEof, dif_neg (by simp [IStream.peek, IStream.good, hl]),
          List.drop_of_length_le hl.le]
        exact .nil hinv
      · have hgood : (({ s with gcount := 0 } : IStream).read n).2.good = true :=
          (IStream.read_good_iff hs' n).mpr (not_lt.mp hl)
        rw [IStream.read_of_good hs'] at hgood
        exact ih _ (drop_shorter n hne) hgood hinv rfl
    · refine .stop h fun hb => hc ⟨hb, ?_⟩
      rw [Option.isSome_iff_ne_none, Ne, IStream.peek_none_iff hs]
      exact hne

end Rules

/-! What every turn keeps holds at the end, from whatever stream. -/
section Keeps
variable {n : Nat} [NeZero n] {guard : σ → Bool} {body : σ → List UInt8 → σ} {I : σ → Prop} {st : σ}
variable (hstep : ∀ st chunk, I st → I (body st chunk))
include hstep

end Keeps
end Iostream
