import Mathlib.Algebra.Group.Nat.Defs
import GitCrypt.Library.IStream

/-! Records of tagged, length-prefixed fields closed by a zero tag, and the reader that
takes them off a stream one field at a time. Odd tags are critical: a reader that does
not know one gives up; an unknown even tag is skipped. -/
namespace Tlv
open Iostream

/-- A fixed encoding of 32-bit words in four bytes. -/
structure WordCodec where
  enc : UInt32 → List UInt8
  dec : List UInt8 → UInt32
  enc_length : ∀ w, (enc w).length = 4
  dec_enc : ∀ w, dec (enc w) = w
  enc_dec : ∀ bytes, bytes.length = 4 → enc (dec bytes) = bytes

namespace WordCodec
variable (W : WordCodec)

/-- Read one word, or none when four bytes are not there. -/
def read (s : IStream) : Option (UInt32 × IStream) :=
  let (buffer, s) := s.read 4
  if s.gcount ≠ 4 then none else some (W.dec buffer, s)

theorem read_enc (w : UInt32) (tail : List UInt8) (g : Nat) :
    W.read ⟨W.enc w ++ tail, false, false, g⟩ = some (w, ⟨tail, false, false, 4⟩) := by
  have hl := W.enc_length w
  simp [read, IStream.read, IStream.good, hl, W.dec_enc]

theorem read_eq_some {s s' : IStream} {w : UInt32} (hg : s.good = true)
    (h : W.read s = some (w, s')) :
    s.rest = W.enc w ++ s'.rest ∧ s' = ⟨s'.rest, false, false, 4⟩ := by
  simp only [read, IStream.read_of_good hg] at h
  split at h
  · cases h
  · rename_i hc
    have hl : 4 ≤ s.rest.length := by omega
    cases h
    have ht : (s.rest.take 4).length = 4 := by simp [hl]
    simp [W.enc_dec _ ht, hl]

end WordCodec

structure Field where
  id : UInt32
  payload : List UInt8
  deriving DecidableEq, Repr

/-- The length word written before the payload. -/
def Field.len (f : Field) : UInt32 := UInt32.ofNat f.payload.length

/-- What a reader does with a field whose tag it knows: the lengths and payloads it takes,
what a payload sets, and what is left behind when a payload is refused. -/
structure Known (σ : Type) where
  lengthOk : UInt32 → Bool
  payloadOk : List UInt8 → Bool
  set : σ → List UInt8 → σ
  refused : σ → σ

inductive Error where
  | malformed
  | incompatible
  deriving DecidableEq, Repr

structure Format (σ : Type) where
  words : WordCodec
  known : UInt32 → Option (Known σ)
  maxSkip : UInt32

inductive Step (σ : Type) where
  | finished (s : IStream)
  | field (st : σ) (s : IStream)
  | failed (st : σ) (e : Error)

namespace Format
variable {σ : Type} (F : Format σ)

/-- One turn of the reader: a closing tag, a field, or an error. -/
def readField (st : σ) (s : IStream) : Step σ :=
  match F.words.read s with
  | none => .failed st .malformed
  | some (id, s) =>
    if id = 0 then .finished s
    else match F.words.read s with
      | none => .failed st .malformed
      | some (len, s) =>
        match F.known id with
        | some k =>
          if !k.lengthOk len then .failed st .malformed
          else
            let (bytes, s) := s.read len.toNat
            if s.gcount ≠ len.toNat then .failed st .malformed
            else if !k.payloadOk bytes then .failed (k.refused st) .malformed
            else .field (k.set st bytes) s
        | none =>
          if id &&& 1 = 1 then .failed st .incompatible
          else if F.maxSkip < len then .failed st .malformed
          else
            let s := s.ignore len.toNat
            if s.gcount ≠ len.toNat then .failed st .malformed else .field st s

/-- A field the reader takes. -/
def Accepts (f : Field) : Prop :=
  f.id ≠ 0 ∧ f.payload.length < 2 ^ 32 ∧
    match F.known f.id with
    | some k => k.lengthOk f.len = true ∧ k.payloadOk f.payload = true
    | none => f.id &&& 1 ≠ 1 ∧ f.len ≤ F.maxSkip

theorem accepts_of_known {f : Field} {k : Known σ} (h : F.known f.id = some k) :
    F.Accepts f ↔ f.id ≠ 0 ∧ f.payload.length < 2 ^ 32 ∧ k.lengthOk f.len = true ∧
      k.payloadOk f.payload = true := by
  simp only [Accepts, h]

theorem accepts_of_unknown {f : Field} (h : F.known f.id = none) :
    F.Accepts f ↔ f.id ≠ 0 ∧ f.payload.length < 2 ^ 32 ∧ f.id &&& 1 ≠ 1 ∧ f.len ≤ F.maxSkip := by
  simp only [Accepts, h]

/-- What taking a field does to the value being read. -/
def apply (st : σ) (f : Field) : σ :=
  match F.known f.id with
  | some k => k.set st f.payload
  | none => st

theorem apply_of_known {f : Field} {k : Known σ} (h : F.known f.id = some k) (st : σ) :
    F.apply st f = k.set st f.payload := by
  simp only [apply, h]

theorem apply_of_unknown {f : Field} (h : F.known f.id = none) (st : σ) : F.apply st f = st := by
  simp only [apply, h]

def applyAll (st : σ) (fs : List Field) : σ := fs.foldl F.apply st

def encodeField (f : Field) : List UInt8 := F.words.enc f.id ++ F.words.enc f.len ++ f.payload

def encodeFields (fs : List Field) : List UInt8 := fs.flatMap F.encodeField

/-- A whole record: its fields and the closing tag. -/
def encode (fs : List Field) : List UInt8 := F.encodeFields fs ++ F.words.enc 0

@[simp] theorem encodeFields_nil : F.encodeFields [] = [] := rfl

@[simp] theorem encodeFields_cons (f : Field) (fs : List Field) :
    F.encodeFields (f :: fs) = F.encodeField f ++ F.encodeFields fs := rfl

@[simp] theorem applyAll_nil (st : σ) : F.applyAll st [] = st := rfl

@[simp] theorem applyAll_cons (st : σ) (f : Field) (fs : List Field) :
    F.applyAll st (f :: fs) = F.applyAll (F.apply st f) fs := rfl

theorem applyAll_append (st : σ) (fs gs : List Field) :
    F.applyAll st (fs ++ gs) = F.applyAll (F.applyAll st fs) gs :=
  List.foldl_append

private theorem len_toNat {f : Field} (h : f.payload.length < 2 ^ 32) :
    f.len.toNat = f.payload.length :=
  UInt32.toNat_ofNat_of_lt' h

/-- An accepted field at the front of the stream is taken whole. -/
theorem readField_encodeField {f : Field} (h : F.Accepts f) (st : σ) (tail : List UInt8)
    (g : Nat) :
    F.readField st ⟨F.encodeField f ++ tail, false, false, g⟩ =
      .field (F.apply st f) ⟨tail, false, false, f.payload.length⟩ := by
  obtain ⟨hid, hlen, hk⟩ := h
  have hn := len_toNat hlen
  have hread := F.words.read_enc f.id (F.words.enc f.len ++ (f.payload ++ tail)) g
  simp only [readField, encodeField, List.append_assoc, hread, if_neg hid,
    F.words.read_enc f.len]
  cases hf : F.known f.id with
  | some k =>
    rw [hf] at hk
    simp [IStream.read, IStream.good, hn, hk.1, hk.2, apply, hf]
  | none =>
    rw [hf] at hk
    simp [IStream.ignore, IStream.good, hn, hk.1, UInt32.not_lt.mpr hk.2, apply, hf]

theorem readField_close (st : σ) (tail : List UInt8) (g : Nat) :
    F.readField st ⟨F.words.enc 0 ++ tail, false, false, g⟩ =
      .finished ⟨tail, false, false, 4⟩ := by
  simp [readField, F.words.read_enc]

theorem readField_unknown_odd {id : UInt32} (hk : F.known id = none) (ho : id &&& 1 = 1)
    (len : UInt32) (st : σ) (tail : List UInt8) (g : Nat) :
    F.readField st ⟨F.words.enc id ++ (F.words.enc len ++ tail), false, false, g⟩ =
      .failed st .incompatible := by
  have hid : id ≠ 0 := by
    rintro rfl
    exact absurd ho (by decide)
  simp [readField, F.words.read_enc, hid, hk, ho]

/-- The field whose payload are the next `len` bytes. -/
private theorem encodeField_take (id : UInt32) {len : UInt32} {rest : List UInt8}
    (h : len.toNat ≤ rest.length) :
    (Field.mk id (rest.take len.toNat)).len = len ∧ (rest.take len.toNat).length = len.toNat ∧
      F.encodeField ⟨id, rest.take len.toNat⟩ ++ rest.drop len.toNat =
        F.words.enc id ++ (F.words.enc len ++ rest) := by
  have hpay : (rest.take len.toNat).length = len.toNat := List.length_take_of_le h
  have hlen : (Field.mk id (rest.take len.toNat)).len = len := by
    simp only [Field.len, hpay, UInt32.ofNat_toNat]
  refine ⟨hlen, hpay, ?_⟩
  simp only [encodeField, hlen, List.append_assoc, List.take_append_drop]

/-- What each outcome of one turn says about the bytes in front of it. -/
theorem readField_cases (st : σ) {s : IStream} (hg : s.good = true) :
    match F.readField st s with
    | .finished s' => s.rest = F.words.enc 0 ++ s'.rest ∧ s' = ⟨s'.rest, false, false, 4⟩
    | .field st' s' => ∃ f, F.Accepts f ∧ s.rest = F.encodeField f ++ s'.rest ∧
        st' = F.apply st f ∧ s' = ⟨s'.rest, false, false, f.payload.length⟩
    | .failed _ .incompatible => ∃ id len tail, F.known id = none ∧ id &&& 1 = 1 ∧
        s.rest = F.words.enc id ++ (F.words.enc len ++ tail)
    | .failed _ .malformed => True := by
  unfold readField
  cases hid : F.words.read s with
  | none => trivial
  | some r =>
    obtain ⟨id, s₁⟩ := r
    obtain ⟨hr₁, hs₁⟩ := F.words.read_eq_some hg hid
    by_cases h0 : id = 0
    · simp only [h0, if_true]
      exact ⟨h0 ▸ hr₁, hs₁⟩
    have hg₁ : s₁.good = true := by rw [hs₁]; rfl
    simp only [if_neg h0]
    cases hlen : F.words.read s₁ with
    | none => trivial
    | some r =>
      obtain ⟨len, s₂⟩ := r
      obtain ⟨hr₂, hs₂⟩ := F.words.read_eq_some hg₁ hlen
      have hg₂ : s₂.good = true := by rw [hs₂]; rfl
      cases hk : F.known id with
      | some k =>
        simp only [IStream.read_of_good hg₂]
        split_ifs with ha hc hv
        · trivial
        · trivial
        · trivial
        · have hle : len.toNat ≤ s₂.rest.length := by omega
          obtain ⟨hl, hpay, henc⟩ := F.encodeField_take id hle
          have hlt : (s₂.rest.take len.toNat).length < 2 ^ 32 := by rw [hpay]; exact len.toNat_lt
          let f : Field := ⟨id, s₂.rest.take len.toNat⟩
          refine ⟨f, (F.accepts_of_known hk).mpr ⟨h0, hlt, ?_, by simpa using hv⟩,
            by rw [hr₁, hr₂, henc], (F.apply_of_known (f := f) hk st).symm, by simp [f, hpay, hle]⟩
          rw [hl]
          simpa using ha
      | none =>
        simp only
        split_ifs with ho hm hc
        · exact ⟨id, len, s₂.rest, hk, ho, by rw [hr₁, hr₂]⟩
        · trivial
        · trivial
        · simp only [IStream.ignore, if_pos hg₂] at hc ⊢
          have hle : len.toNat ≤ s₂.rest.length := by omega
          obtain ⟨hl, hpay, henc⟩ := F.encodeField_take id hle
          have hlt : (s₂.rest.take len.toNat).length < 2 ^ 32 := by rw [hpay]; exact len.toNat_lt
          let f : Field := ⟨id, s₂.rest.take len.toNat⟩
          refine ⟨f, (F.accepts_of_unknown hk).mpr ⟨h0, hlt, ho, ?_⟩,
            by rw [hr₁, hr₂, henc], (F.apply_of_unknown (f := f) hk st).symm, by simp [f, hpay, hle]⟩
          rw [hl]
          exact UInt32.not_lt.mp hm

private theorem readField_of_bad (st : σ) {s : IStream} (hg : ¬ s.good = true) :
    F.readField st s = .failed st .malformed := by
  have hn : F.words.read s = none := by simp [WordCodec.read, IStream.read, hg]
  rw [readField, hn]

private theorem readField_shorter {st st' : σ} {s s' : IStream}
    (h : F.readField st s = .field st' s') : s'.rest.length < s.rest.length := by
  by_cases hg : s.good = true
  · have hc := F.readField_cases st hg
    rw [h] at hc
    obtain ⟨f, hf, hr, _⟩ := hc
    rw [hr]
    simp only [encodeField, List.length_append, F.words.enc_length]
    omega
  · rw [F.readField_of_bad st hg] at h
    cases h

/-- The field loop: take fields up to and including the closing tag. -/
def readFields (st : σ) (s : IStream) : σ × Except Error IStream :=
  match _h : F.readField st s with
  | .finished s => (st, .ok s)
  | .failed st e => (st, .error e)
  | .field st s => readFields st s
termination_by s.rest.length
decreasing_by exact F.readField_shorter _h

theorem readFields_eq (st : σ) (s : IStream) :
    F.readFields st s =
      match F.readField st s with
      | .finished s => (st, .ok s)
      | .failed st e => (st, .error e)
      | .field st s => F.readFields st s := by
  conv_lhs => rw [readFields]
  split <;> rename_i h <;> rw [h]

/-- Whatever the state of the stream, a record that is read takes bytes off it. -/
theorem readFields_shorter {st st' : σ} {s s' : IStream}
    (h : F.readFields st s = (st', .ok s')) : s'.rest.length < s.rest.length := by
  fun_induction readFields F st s with
  | case1 st₀ s₀ s₁ hs =>
    cases h
    by_cases hg : s₀.good = true
    · have hc := F.readField_cases st' hg
      rw [hs] at hc
      rw [hc.1, List.length_append, F.words.enc_length]
      omega
    · rw [F.readField_of_bad st' hg] at hs
      cases hs
  | case2 => cases h
  | case3 st₀ s₀ st₁ s₁ hs ih => exact Nat.lt_trans (ih h) (F.readField_shorter hs)

/-- Which step it is does not depend on what was read before, nor does the stream after it. -/
private inductive SameStep : Step σ → Step σ → Prop where
  | finished (s : IStream) : SameStep (.finished s) (.finished s)
  | field (st st' : σ) (s : IStream) : SameStep (.field st s) (.field st' s)
  | failed (st st' : σ) (e : Error) : SameStep (.failed st e) (.failed st' e)

private theorem readField_same (st st' : σ) (s : IStream) : SameStep (F.readField st s) (F.readField st' s) := by
  unfold readField
  rcases F.words.read s with _ | ⟨id, s⟩
  · exact .failed ..
  · dsimp only
    by_cases hid : id = 0
    · rw [if_pos hid, if_pos hid]
      exact .finished _
    · rw [if_neg hid, if_neg hid]
      rcases F.words.read s with _ | ⟨len, s⟩
      · exact .failed ..
      · rcases F.known id with _ | k
        · dsimp only
          split_ifs <;> constructor
        · dsimp only
          split_ifs <;> constructor

private theorem readField_like {st : σ} {s : IStream} {step : Step σ} (h : F.readField st s = step) (st' : σ) :
    ∃ step', F.readField st' s = step' ∧ SameStep step step' :=
  ⟨_, rfl, h ▸ F.readField_same st st' s⟩

/-- The fields end where they end, whatever was read before. -/
theorem readFields_stream (st st' : σ) (s : IStream) : (F.readFields st s).2 = (F.readFields st' s).2 := by
  fun_induction readFields F st s generalizing st' with
  | case1 st s s' hstep =>
    obtain ⟨_, hstep', ⟨⟩⟩ := F.readField_like hstep st'
    rw [readFields_eq, hstep']
  | case2 st s st₁ e hstep =>
    obtain ⟨_, hstep', ⟨⟩⟩ := F.readField_like hstep st'
    rw [readFields_eq, hstep']
  | case3 st s st₁ s₁ hstep ih =>
    obtain ⟨_, hstep', ⟨⟩⟩ := F.readField_like hstep st'
    rw [F.readFields_eq st', hstep']
    exact ih _

/-- Accepted fields in front are taken and the rest is read from there. -/
theorem readFields_encodeFields {fs : List Field} (h : ∀ f ∈ fs, F.Accepts f) (st : σ)
    (tail : List UInt8) (g : Nat) :
    ∃ g', F.readFields st ⟨F.encodeFields fs ++ tail, false, false, g⟩ =
      F.readFields (F.applyAll st fs) ⟨tail, false, false, g'⟩ := by
  induction fs generalizing st g with
  | nil => exact ⟨g, rfl⟩
  | cons f fs ih =>
    have hf := F.readField_encodeField (h f (by simp)) st (F.encodeFields fs ++ tail) g
    obtain ⟨g', hg'⟩ := ih (fun f hf => h f (by simp [hf])) (F.apply st f) f.payload.length
    refine ⟨g', ?_⟩
    rw [readFields_eq, encodeFields_cons, List.append_assoc, hf]
    simp only [hg', applyAll_cons]

/-- A well-formed record is read whole. -/
theorem readFields_encode {fs : List Field} (h : ∀ f ∈ fs, F.Accepts f) (st : σ)
    (tail : List UInt8) (g : Nat) :
    F.readFields st ⟨F.encode fs ++ tail, false, false, g⟩ =
      (F.applyAll st fs, .ok ⟨tail, false, false, 4⟩) := by
  obtain ⟨g', hg'⟩ := F.readFields_encodeFields h st (F.words.enc 0 ++ tail) g
  rw [encode, List.append_assoc, hg', readFields_eq, readField_close]

/-- The bytes a record reader stops at as incompatible: accepted fields, then an odd tag
it does not know with its length word. -/
def UnknownOdd (bytes : List UInt8) : Prop :=
  ∃ fs id len tail, (∀ f ∈ fs, F.Accepts f) ∧ F.known id = none ∧ id &&& 1 = 1 ∧
    bytes = F.encodeFields fs ++ (F.words.enc id ++ (F.words.enc len ++ tail))

theorem readFields_unknownOdd {bytes : List UInt8} (h : F.UnknownOdd bytes) (st : σ) (g : Nat) :
    (F.readFields st ⟨bytes, false, false, g⟩).2 = .error .incompatible := by
  obtain ⟨fs, id, len, tail, hfs, hk, ho, rfl⟩ := h
  obtain ⟨g', hg'⟩ := F.readFields_encodeFields hfs st (F.words.enc id ++ (F.words.enc len ++ tail)) g
  rw [hg', readFields_eq, F.readField_unknown_odd hk ho]

/-- What each outcome of the loop says about the bytes it was given. -/
theorem readFields_cases (st : σ) {s : IStream} (hg : s.good = true) :
    match F.readFields st s with
    | (st', .ok s') => ∃ fs, (∀ f ∈ fs, F.Accepts f) ∧ s.rest = F.encode fs ++ s'.rest ∧
        st' = F.applyAll st fs ∧ s' = ⟨s'.rest, false, false, 4⟩
    | (_, .error .incompatible) => F.UnknownOdd s.rest
    | (_, .error .malformed) => True := by
  fun_induction readFields F st s with
  | case1 st s s' h =>
    have hc := F.readField_cases st hg
    rw [h] at hc
    exact ⟨[], by simp, by simpa [encode] using hc.1, rfl, hc.2⟩
  | case2 st s st' e h =>
    have hc := F.readField_cases st hg
    rw [h] at hc
    cases e with
    | malformed => trivial
    | incompatible =>
      obtain ⟨id, len, tail, hk, ho, hr⟩ := hc
      exact ⟨[], id, len, tail, by simp, hk, ho, by simpa using hr⟩
  | case3 st s st' s' h ih =>
    have hc := F.readField_cases st hg
    rw [h] at hc
    obtain ⟨f, hf, hr, rfl, hs'⟩ := hc
    specialize ih (by rw [hs']; rfl)
    split at ih
    · obtain ⟨fs, hfs, hr', hst, hs''⟩ := ih
      exact ⟨f :: fs, List.forall_mem_cons.mpr ⟨hf, hfs⟩, by rw [hr, hr']; simp [encode], hst, hs''⟩
    · obtain ⟨fs, id, len, tail, hfs, hk, ho, hr'⟩ := ih
      exact ⟨f :: fs, id, len, tail, List.forall_mem_cons.mpr ⟨hf, hfs⟩, hk, ho, by rw [hr, hr']; simp⟩
    · trivial

end Format
end Tlv
