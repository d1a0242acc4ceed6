import Mathlib.Data.UInt
import GitCrypt.Util
import GitCrypt.Library.Keystream

/-! The CTR-mode encryptor and the HMAC of crypto.cpp over an arbitrary block cipher and
an arbitrary keyed hash. The invariant `AesCtrEncryptor.At` ties the byte counter, the
pad and the blocks given to AES to one position in the keystream. -/
namespace GitCrypt

abbrev aesKeyLen : Nat := 32
abbrev hmacKeyLen : Nat := 64
abbrev nonceLen : Nat := 12
abbrev blockLen : Nat := 16
abbrev hmacLen : Nat := 20
def maxCryptBytes : UInt64 := 2 ^ 36

/-- AES-256 on one block and HMAC-SHA1, as functions of key and data. -/
structure Primitives where
  aes : Buffer aesKeyLen → Buffer blockLen → Buffer blockLen
  hmacSha1 : Buffer hmacKeyLen → Bytes → Buffer hmacLen

/-- `Hmac_sha1_state`: the chunks added so far. -/
structure HmacSha1State where
  key : Buffer hmacKeyLen
  data : Bytes := []

namespace HmacSha1State

def add (s : HmacSha1State) (chunk : Bytes) : HmacSha1State := { s with data := s.data ++ chunk }

def get (P : Primitives) (s : HmacSha1State) : Bytes := (P.hmacSha1 s.key s.data).toBytes

end HmacSha1State

/-- `fed` is not in the source: the blocks this object was asked to encrypt, in order. -/
structure AesEcbEncryptor where
  key : Buffer aesKeyLen
  fed : List (Buffer blockLen) := []

def AesEcbEncryptor.encrypt (P : Primitives) (e : AesEcbEncryptor) (plain : Buffer blockLen) :
    AesEcbEncryptor × Buffer blockLen :=
  ({ e with fed := e.fed ++ [plain] }, P.aes e.key plain)

structure AesCtrEncryptor where
  ecb : AesEcbEncryptor
  ctrValue : Buffer blockLen
  pad : Buffer blockLen
  byteCounter : UInt32

def tooMuchData : Exception :=
  .cryptoError "Aes_ctr_encryptor::process" "Too much data to encrypt securely"

namespace AesCtrEncryptor

/-- The constructor. The source leaves the rest of the counter and the pad unset; both are
written before they are read. -/
def new (rawKey : Buffer aesKeyLen) (nonce : Bytes) : AesCtrEncryptor where
  ecb := { key := rawKey }
  ctrValue := Buffer.zero.blit 0 (nonce.take nonceLen)
  pad := Buffer.zero
  byteCounter := 0

/-- The head of the loop in `process`: a new pad at every block boundary. -/
def refill (P : Primitives) (c : AesCtrEncryptor) : AesCtrEncryptor :=
  if c.byteCounter % 16 = 0 then
    let ctrValue := c.ctrValue.blit nonceLen (storeBe32 (c.byteCounter / 16))
    let (ecb, pad) := c.ecb.encrypt P ctrValue
    { c with ecb, ctrValue, pad }
  else c

/-- One turn of the loop in `process`, up to the overflow test. -/
def processByte (P : Primitives) (c : AesCtrEncryptor) (b : UInt8) : AesCtrEncryptor × UInt8 :=
  let c := c.refill P
  ({ c with byteCounter := c.byteCounter + 1 }, b ^^^ c.pad (Fin.ofNat 16 c.byteCounter.toNat))

def process (P : Primitives) : AesCtrEncryptor → Bytes → AesCtrEncryptor × Except Exception Bytes
  | c, [] => (c, .ok [])
  | c, b :: bytes =>
    let (c, out) := c.processByte P b
    if c.byteCounter = 0 then (c, .error tooMuchData)
    else match process P c bytes with
      | (c, .ok rest) => (c, .ok (out :: rest))
      | (c, .error e) => (c, .error e)

/-- Successive calls of `process`, up to and including the first that throws. -/
def processCalls (P : Primitives) : AesCtrEncryptor → List Bytes → AesCtrEncryptor
  | c, [] => c
  | c, chunk :: chunks =>
    match c.process P chunk with
    | (c, .ok _) => processCalls P c chunks
    | (c, .error _) => c

end AesCtrEncryptor

/-- The counter block with index `i`: the nonce, then the index in big-endian. -/
def counterBlock (nonce : Bytes) (i : Nat) : Buffer blockLen :=
  Buffer.ofBytes (nonce ++ storeBe32 (UInt32.ofNat i))

/-- Byte `i` of the keystream for a key and a nonce. -/
def ctrKeystream (P : Primitives) (key : Buffer aesKeyLen) (nonce : Bytes) (i : Nat) : UInt8 :=
  P.aes key (counterBlock nonce (i / 16)) (Fin.ofNat 16 i)

/-- XOR with the keystream from position `n` on. -/
def ctrXor (P : Primitives) (key : Buffer aesKeyLen) (nonce : Bytes) : Nat → Bytes → Bytes :=
  Keystream.mask (· ^^^ ·) (ctrKeystream P key nonce)

theorem ctrXor_ctrXor (P : Primitives) (key : Buffer aesKeyLen) (nonce : Bytes) (n : Nat)
    (bytes : Bytes) : ctrXor P key nonce n (ctrXor P key nonce n bytes) = bytes :=
  Keystream.mask_mask _ (fun a k => by rw [UInt8.xor_assoc, UInt8.xor_self, UInt8.xor_zero]) n bytes

@[simp] theorem length_ctrXor (P : Primitives) (key : Buffer aesKeyLen) (nonce : Bytes) (n : Nat)
    (bytes : Bytes) : (ctrXor P key nonce n bytes).length = bytes.length :=
  Keystream.length_mask ..

theorem ctrXor_append (P : Primitives) (key : Buffer aesKeyLen) (nonce : Bytes) (n : Nat)
    (a b : Bytes) :
    ctrXor P key nonce n (a ++ b) = ctrXor P key nonce n a ++ ctrXor P key nonce (n + a.length) b :=
  Keystream.mask_append ..

theorem counterBlock_toBytes {nonce : Bytes} (h : nonce.length = nonceLen) (i : Nat) :
    (counterBlock nonce i).toBytes = nonce ++ storeBe32 (UInt32.ofNat i) :=
  Buffer.toBytes_ofBytes (by simp [h])

/-- Counter blocks below the index limit determine their nonce and their index. -/
theorem counterBlock_inj {nonce nonce' : Bytes} {i j : Nat} (hn : nonce.length = nonceLen)
    (hn' : nonce'.length = nonceLen) (hi : i < 2 ^ 32) (hj : j < 2 ^ 32)
    (h : counterBlock nonce i = counterBlock nonce' j) : nonce = nonce' ∧ i = j := by
  have hb := congrArg Buffer.toBytes h
  rw [counterBlock_toBytes hn, counterBlock_toBytes hn'] at hb
  obtain ⟨h₁, h₂⟩ := List.append_inj hb (hn.trans hn'.symm)
  have h₃ := congrArg UInt32.toNat (storeBe32_injective h₂)
  rw [UInt32.toNat_ofNat_of_lt' hi, UInt32.toNat_ofNat_of_lt' hj] at h₃
  exact ⟨h₁, h₃⟩

namespace AesCtrEncryptor
variable {P : Primitives} {key : Buffer aesKeyLen} {nonce : Bytes}

/-- The encryptor stands at byte `n` of the keystream. At `n = 2^32` the byte counter has
wrapped to zero. -/
structure At (P : Primitives) (key : Buffer aesKeyLen) (nonce : Bytes) (c : AesCtrEncryptor)
    (n : Nat) : Prop where
  bound : n ≤ 2 ^ 32
  counter : c.byteCounter.toNat = n % 2 ^ 32
  ecbKey : c.ecb.key = key
  length : nonce.length = nonceLen
  prefixed : c.ctrValue.toBytes.take nonceLen = nonce
  pad : n % 16 ≠ 0 → c.pad = P.aes key (counterBlock nonce (n / 16))
  fed : c.ecb.fed = (List.range ((n + 15) / 16)).map (counterBlock nonce)

theorem at_new (key : Buffer aesKeyLen) {nonce : Bytes} (h : nonceLen ≤ nonce.length) :
    At P key (nonce.take nonceLen) (new key nonce) 0 := by
  have hl : (nonce.take nonceLen).length = nonceLen := by simp [h]
  refine ⟨by omega, rfl, rfl, hl, ?_, by simp, rfl⟩
  rw [new, Buffer.toBytes_blit _ (by rw [hl]; decide)]
  simp [hl]

/-- After the head of the loop the pad belongs to the current block, and exactly the
blocks up to it have been given to AES. -/
private theorem refill_at {c : AesCtrEncryptor} {n : Nat} (h : At P key nonce c n)
    (hn : n < 2 ^ 32) :
    (c.refill P).byteCounter = c.byteCounter ∧ (c.refill P).ecb.key = key ∧
      (c.refill P).ctrValue.toBytes.take nonceLen = nonce ∧
      (c.refill P).pad = P.aes key (counterBlock nonce (n / 16)) ∧
      (c.refill P).ecb.fed = (List.range (n / 16 + 1)).map (counterBlock nonce) := by
  have hc : c.byteCounter.toNat = n := by rw [h.counter, Nat.mod_eq_of_lt hn]
  have hm : c.byteCounter % 16 = 0 ↔ n % 16 = 0 := by
    rw [← UInt32.toNat_inj]
    simp [hc]
  unfold refill
  split_ifs with h0
  · have hd : c.byteCounter / 16 = UInt32.ofNat (n / 16) := by
      apply UInt32.toNat_inj.mp
      rw [UInt32.toNat_ofNat_of_lt' (by change _ < 2 ^ 32; omega)]
      simp [hc]
    have hblock : c.ctrValue.blit nonceLen (storeBe32 (c.byteCounter / 16)) =
        counterBlock nonce (n / 16) := by
      apply Buffer.toBytes_injective
      rw [counterBlock_toBytes h.length, Buffer.toBytes_blit _ (by simp), h.prefixed, hd]
      simp
    refine ⟨rfl, h.ecbKey, ?_, ?_, ?_⟩
    · simp only [hblock]
      rw [counterBlock_toBytes h.length, ← h.length, List.take_left]
    · simp [AesEcbEncryptor.encrypt, hblock, h.ecbKey]
    · have hr : (n + 15) / 16 = n / 16 := by have := hm.mp h0; omega
      simp [AesEcbEncryptor.encrypt, hblock, h.fed, hr, List.range_succ]
  · have hn0 : n % 16 ≠ 0 := fun h' => h0 (hm.mpr h')
    have hr : (n + 15) / 16 = n / 16 + 1 := by omega
    exact ⟨rfl, h.ecbKey, h.prefixed, h.pad hn0, by rw [h.fed, hr]⟩

/-- One byte moves the position by one and is combined with that keystream byte. -/
theorem processByte_at {c : AesCtrEncryptor} {n : Nat} (h : At P key nonce c n)
    (hn : n < 2 ^ 32) (b : UInt8) :
    At P key nonce (c.processByte P b).1 (n + 1) ∧
      (c.processByte P b).2 = b ^^^ ctrKeystream P key nonce n := by
  obtain ⟨hcnt, hkey, hnonce, hpad, hfed⟩ := refill_at h hn
  have hc : c.byteCounter.toNat = n := by rw [h.counter, Nat.mod_eq_of_lt hn]
  refine ⟨⟨hn, ?_, hkey, h.length, hnonce, ?_, ?_⟩, ?_⟩
  · simp [processByte, hcnt, hc]
  · intro h1
    rw [show (n + 1) / 16 = n / 16 by omega]
    exact hpad
  · rw [show (n + 1 + 15) / 16 = n / 16 + 1 by omega]
    exact hfed
  · simp [processByte, hcnt, hc, hpad, ctrKeystream]

private theorem byteCounter_eq_zero {c : AesCtrEncryptor} {n : Nat} (h : At P key nonce c (n + 1)) :
    c.byteCounter = 0 ↔ n + 1 = 2 ^ 32 := by
  have hb := h.bound
  rw [← UInt32.toNat_inj, h.counter, UInt32.toNat_zero]
  omega

/-- Below the limit a call XORs its input with the keystream and moves on. -/
theorem process_of_lt {c : AesCtrEncryptor} {n : Nat} (h : At P key nonce c n) {bytes : Bytes}
    (hn : n + bytes.length < 2 ^ 32) :
    (c.process P bytes).2 = .ok (ctrXor P key nonce n bytes) ∧
      At P key nonce (c.process P bytes).1 (n + bytes.length) := by
  induction bytes generalizing c n with
  | nil => exact ⟨rfl, h⟩
  | cons b bytes ih =>
    rw [List.length_cons] at hn
    obtain ⟨hat, hout⟩ := processByte_at h (by omega) b
    have hne : ¬ (c.processByte P b).1.byteCounter = 0 := by
      rw [byteCounter_eq_zero hat]
      omega
    obtain ⟨hres, hat'⟩ := ih hat (by omega)
    generalize hr : process P (c.processByte P b).1 bytes = r at hres hat'
    obtain ⟨c', out⟩ := r
    simp only at hres
    subst hres
    simp only [process, if_neg hne, hr, hout]
    exact ⟨rfl, by rwa [List.length_cons, show n + (bytes.length + 1) = n + 1 + bytes.length by omega]⟩

/-- A call that takes the total to the limit throws there, whatever came after. -/
theorem process_of_ge {c : AesCtrEncryptor} {n : Nat} (h : At P key nonce c n) {bytes : Bytes}
    (hlt : n < 2 ^ 32) (hn : 2 ^ 32 ≤ n + bytes.length) :
    (c.process P bytes).2 = .error tooMuchData ∧ At P key nonce (c.process P bytes).1 (2 ^ 32) := by
  induction bytes generalizing c n with
  | nil => simp at hn; omega
  | cons b bytes ih =>
    rw [List.length_cons] at hn
    obtain ⟨hat, -⟩ := processByte_at h hlt b
    by_cases hz : n + 1 = 2 ^ 32
    · have h0 := (byteCounter_eq_zero hat).mpr hz
      simp only [process, if_pos h0]
      exact ⟨trivial, hz ▸ hat⟩
    · have hne : ¬ (c.processByte P b).1.byteCounter = 0 := mt (byteCounter_eq_zero hat).mp hz
      obtain ⟨hres, hat'⟩ := ih hat (by have := h.bound; omega) (by omega)
      generalize hr : process P (c.processByte P b).1 bytes = r at hres hat'
      obtain ⟨c', out⟩ := r
      simp only at hres
      subst hres
      simp only [process, if_neg hne, hr]
      exact ⟨trivial, hat'⟩

/-- However the input is cut into calls, the encryptor ends at some position not beyond
the limit, with exactly the blocks before it given to AES. -/
theorem processCalls_at {c : AesCtrEncryptor} {n : Nat} (h : At P key nonce c n) (hn : n < 2 ^ 32)
    (chunks : List Bytes) : ∃ m, At P key nonce (c.processCalls P chunks) m := by
  induction chunks generalizing c n with
  | nil => exact ⟨n, h⟩
  | cons chunk chunks ih =>
    unfold processCalls
    by_cases hl : n + chunk.length < 2 ^ 32
    · obtain ⟨hres, hat⟩ := process_of_lt h hl
      generalize c.process P chunk = r at hres hat
      obtain ⟨c', out⟩ := r
      simp only at hres
      subst hres
      exact ih hat hl
    · obtain ⟨hres, hat⟩ := process_of_ge h hn (not_lt.mp hl)
      generalize c.process P chunk = r at hres hat
      obtain ⟨c', out⟩ := r
      simp only at hres
      subst hres
      exact ⟨_, hat⟩

/-- The block at place `a` of the log is the counter block with index `a`. -/
theorem At.fed_getElem? {c : AesCtrEncryptor} {n a : Nat} (h : At P key nonce c n)
    {block : Buffer blockLen} (hb : c.ecb.fed[a]? = some block) :
    a < 2 ^ 32 ∧ block = counterBlock nonce a := by
  have hbound := h.bound
  rw [h.fed, List.getElem?_map, Option.map_eq_some_iff] at hb
  obtain ⟨i, hi, rfl⟩ := hb
  obtain ⟨hlt, rfl⟩ := List.getElem?_eq_some_iff.mp hi
  rw [List.length_range] at hlt
  exact ⟨by omega, by rw [List.getElem_range]⟩

end AesCtrEncryptor
end GitCrypt
