import Mathlib.Data.List.Basic
import Mathlib.Data.List.TakeDrop
import Mathlib.Data.List.TakeWhile

/-! C++ input and output streams over bytes, as far as their state decides what a
program reads or writes. An input stream holds the bytes not yet extracted; badbit
is not modelled, since every source of bytes here delivers or ends. -/
namespace Iostream

structure IStream where
  rest : List UInt8
  eofbit : Bool := false
  failbit : Bool := false
  gcount : Nat := 0
  deriving DecidableEq, Repr

namespace IStream

def ofBytes (bytes : List UInt8) : IStream := { rest := bytes }

/-- `good()`: neither bit is set. Every extraction starts with this test. -/
def good (s : IStream) : Bool := !s.eofbit && !s.failbit

/-- The conversion to bool, `!fail()`. It stays true when only eofbit is set. -/
def ok (s : IStream) : Bool := !s.failbit

/-- `read`: at most `n` bytes; fewer sets eofbit and failbit. -/
def read (s : IStream) (n : Nat) : List UInt8 × IStream :=
  if s.good then
    let short := decide (s.rest.length < n)
    (s.rest.take n, ⟨s.rest.drop n, short, short, min n s.rest.length⟩)
  else ([], { s with failbit := true, gcount := 0 })

/-- `ignore`: like `read`, but reaching the end sets eofbit only. -/
def ignore (s : IStream) (n : Nat) : IStream :=
  if s.good then ⟨s.rest.drop n, decide (s.rest.length < n), false, min n s.rest.length⟩
  else { s with failbit := true, gcount := 0 }

/-- `peek`: the next byte, or none where C++ returns the end-of-file value. -/
def peek (s : IStream) : Option UInt8 × IStream :=
  if s.good then
    match s.rest with
    | [] => (none, { s with eofbit := true, gcount := 0 })
    | b :: _ => (some b, { s with gcount := 0 })
  else (none, { s with failbit := true, gcount := 0 })

/-- `std::getline`: the delimiter is extracted and dropped. -/
def getline (s : IStream) (delim : UInt8) : List UInt8 × IStream :=
  if s.good then
    let line := s.rest.takeWhile (· ≠ delim)
    match s.rest.dropWhile (· ≠ delim) with
    | _ :: tail => (line, { s with rest := tail })
    | [] => (line, { s with rest := [], eofbit := true, failbit := line.isEmpty })
  else ([], { s with failbit := true })

/-- `isspace` in the C locale. -/
def isSpace (b : UInt8) : Bool := b = 32 || (9 ≤ b && b ≤ 13)

/-- `operator>>` into a fresh `std::string`: skip white space, then take a word. -/
def extractWord (s : IStream) : List UInt8 × IStream :=
  if s.good then
    let rest := s.rest.dropWhile isSpace
    let word := rest.takeWhile (!isSpace ·)
    let tail := rest.dropWhile (!isSpace ·)
    (word, { s with rest := tail, eofbit := tail.isEmpty, failbit := word.isEmpty })
  else ([], { s with failbit := true })

/-- `operator>>` with `std::ws`. -/
def skipWs (s : IStream) : IStream :=
  if s.good then
    let rest := s.rest.dropWhile isSpace
    { s with rest := rest, eofbit := rest.isEmpty }
  else { s with failbit := true }

/-- What a loop guarded by `peek` or by the stream itself still has to do. -/
def todo (s : IStream) : Nat := s.rest.length + if s.ok then 1 else 0

@[simp] theorem ofBytes_rest (bytes : List UInt8) : (ofBytes bytes).rest = bytes := rfl
@[simp] theorem ofBytes_good (bytes : List UInt8) : (ofBytes bytes).good = true := rfl
theorem good_iff {s : IStream} : s.good = true ↔ s.eofbit = false ∧ s.failbit = false := by
  simp [good]

theorem ok_of_good {s : IStream} (h : s.good = true) : s.ok = true := by
  simp [ok, (good_iff.mp h).2]

theorem read_of_good {s : IStream} (h : s.good = true) (n : Nat) :
    s.read n = (s.rest.take n,
      ⟨s.rest.drop n, decide (s.rest.length < n), decide (s.rest.length < n), min n s.rest.length⟩) := by
  simp [read, h]

/-- A read that finds enough bytes leaves the stream good. -/
theorem read_good_iff {s : IStream} (h : s.good = true) (n : Nat) :
    (s.read n).2.good = true ↔ n ≤ s.rest.length := by
  simp [read_of_good h, good]

theorem peek_none_iff {s : IStream} (h : s.good = true) : s.peek.1 = none ↔ s.rest = [] := by
  rw [peek, if_pos h]
  split <;> simp_all

theorem peek_of_cons {s : IStream} (h : s.good = true) (hr : s.rest ≠ []) :
    s.peek.2 = { s with gcount := 0 } := by
  rw [peek, if_pos h]
  split
  · contradiction
  · rfl

/-- A read after a successful peek takes at least one byte. -/
theorem peek_read_lt {s : IStream} (h : s.peek.1.isSome = true) {n : Nat} (hn : 0 < n) :
    (s.peek.2.read n).2.rest.length < s.rest.length := by
  by_cases hg : s.good = true
  · have hne : s.rest ≠ [] := fun hr => by simp [(peek_none_iff hg).mpr hr] at h
    have hpos := List.length_pos_iff.mpr hne
    have hg' : ({ s with gcount := 0 } : IStream).good = true := hg
    rw [peek_of_cons hg hne, read_of_good hg']
    simp only [List.length_drop]
    omega
  · simp [peek, hg] at h

/-- What `getline` takes does not contain the delimiter. -/
theorem delim_notMem_getline (s : IStream) (delim : UInt8) : delim ∉ (s.getline delim).1 := by
  have hline : delim ∉ s.rest.takeWhile (· ≠ delim) := fun h => by
    simpa using List.all_eq_true.mp List.all_takeWhile delim h
  unfold getline
  split_ifs
  · dsimp only
    split
    · exact hline
    · exact hline
  · simp

theorem getline_rest_le (s : IStream) (delim : UInt8) :
    (s.getline delim).2.rest.length ≤ s.rest.length := by
  unfold getline
  split
  · have hd := List.length_dropWhile_le (· ≠ delim) s.rest
    dsimp only
    split
    · rename_i b tail h
      rw [h, List.length_cons] at hd
      exact Nat.le_of_succ_le hd
    · simp
  · exact Nat.le_refl _

theorem skipWs_rest_le (s : IStream) : s.skipWs.rest.length ≤ s.rest.length := by
  unfold skipWs
  split
  · exact List.length_dropWhile_le ..
  · exact Nat.le_refl _

theorem extractWord_rest_le (s : IStream) : s.extractWord.2.rest.length ≤ s.rest.length := by
  unfold extractWord
  split
  · exact Nat.le_trans (List.length_dropWhile_le ..) (List.length_dropWhile_le ..)
  · exact Nat.le_refl _

/-- A word taken after a successful peek takes at least one byte. -/
theorem peek_extractWord_lt {s : IStream} (h : s.peek.1.isSome = true) :
    s.peek.2.extractWord.2.rest.length < s.rest.length := by
  by_cases hg : s.good = true
  · have hne : s.rest ≠ [] := fun hr => by simp [(peek_none_iff hg).mpr hr] at h
    have hg' : ({ s with gcount := 0 } : IStream).good = true := hg
    obtain ⟨b, bs, hr⟩ := List.exists_cons_of_ne_nil hne
    rw [peek_of_cons hg hne, extractWord, if_pos hg']
    dsimp only
    rw [hr, List.length_cons, Nat.lt_succ_iff]
    by_cases hb : isSpace b = true
    · rw [List.dropWhile_cons_of_pos hb]
      exact Nat.le_trans (List.length_dropWhile_le ..) (List.length_dropWhile_le ..)
    · rw [List.dropWhile_cons_of_neg hb, List.dropWhile_cons_of_pos (by simpa using hb)]
      exact List.length_dropWhile_le ..
  · simp [peek, hg] at h

/-- Every read of at least one byte brings a loop over the stream nearer its end. -/
theorem todo_read_lt {s : IStream} (h : s.ok = true) {n : Nat} (hn : 0 < n) :
    (s.read n).2.todo < s.todo := by
  by_cases hg : s.good = true
  · rw [read_of_good hg]
    have hf := (good_iff.mp hg).2
    have hlen : (s.rest.drop n).length = s.rest.length - n := List.length_drop
    by_cases hl : s.rest.length < n
    · simp only [todo, ok, hl, hf, hlen, decide_true, Bool.not_true, Bool.not_false, if_true,
        Bool.false_eq_true, if_false]
      omega
    · simp only [todo, ok, hl, hf, hlen, decide_false, Bool.not_false, if_true]
      omega
  · simp [read, hg, todo, ok] at h ⊢
    simp [h]

end IStream

/-- A `std::ostream`: what was written while it was good, and whether it still is. -/
structure OStream where
  written : List UInt8 := []
  failbit : Bool := false
  deriving DecidableEq, Repr

namespace OStream

def write (o : OStream) (bytes : List UInt8) : OStream :=
  if o.failbit then o else { o with written := o.written ++ bytes }

/-- `operator<<` of a stream buffer: inserting nothing sets failbit. -/
def insertRdbuf (o : OStream) (bytes : List UInt8) : OStream :=
  if o.failbit then o
  else if bytes = [] then { o with failbit := true }
  else { o with written := o.written ++ bytes }

/-- What another stream took, written to this one. -/
def append (o o' : OStream) : OStream :=
  if o.failbit then o else ⟨o.written ++ o'.written, o'.failbit⟩

/-- What has reached the file behind the stream by the time the process exits. The buffer of the
stream has passed on `passed` bytes by itself. The flush at exit passes on the rest, but on a
stream that has failed it does nothing. -/
def delivered (o : OStream) (passed : Nat) : List UInt8 :=
  if o.failbit then o.written.take passed else o.written

theorem delivered_eq_written_iff (o : OStream) (passed : Nat) :
    o.delivered passed = o.written ↔ o.failbit = false ∨ o.written.length ≤ passed := by
  rw [delivered]
  cases o.failbit with
  | false => simp
  | true => simp

@[simp] theorem write_nil (o : OStream) : o.write [] = o := by
  cases o; simp [write]

end OStream
end Iostream
