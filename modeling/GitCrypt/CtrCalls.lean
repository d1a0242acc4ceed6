import GitCrypt.Filter
import GitCrypt.Library.Hoare
import GitCrypt.Library.Memory

/-! `Aes_ctr_encryptor::process` on buffers in memory, where the output may be written over the input:
any calls one after the other are one XOR with the keystream. -/
namespace GitCrypt
namespace AesCtrEncryptor
variable {P : Primitives}

/-- The loop of `process (in, out, len)` from index `i` on, with `n` bytes left. -/
def processLoop (P : Primitives) (input output : Nat) :
    Nat → Nat → Prog (AesCtrEncryptor × Memory UInt8) Exception Unit
  | _, 0 => return
  | i, n + 1 => do
    let (c, m) ← get
    let (c, b) := c.processByte P (m.cells (input + i))
    set (c, m.store (output + i) [b])
    if c.byteCounter = 0 then throw tooMuchData
    processLoop P input output (i + 1) n

/-- A call of `process`, in the memory that its caller has prepared. The two buffers are the same, or
have no byte in common. -/
structure Call where
  memory : Memory UInt8
  input : Nat
  output : Nat
  length : Nat
  buffers : input = output ∨ input + length ≤ output ∨ output + length ≤ input

/-- The bytes in the input buffer. -/
def Call.bytes (call : Call) : Bytes := call.memory.load call.input call.length

@[simp] theorem Call.length_bytes (call : Call) : call.bytes.length = call.length := Memory.length_load

/-- The encryptor after the call, and what is then in the output buffer. -/
def perform (P : Primitives) (c : AesCtrEncryptor) (call : Call) : AesCtrEncryptor × Except Exception Bytes :=
  let r := processLoop P call.input call.output 0 call.length (c, call.memory)
  (r.2.1, r.1.map fun _ => r.2.2.load call.output call.length)

/-- Successive calls, up to and including the first that throws, and their outputs. -/
def performAll (P : Primitives) : AesCtrEncryptor → List Call → AesCtrEncryptor × Except Exception Bytes
  | c, [] => (c, .ok [])
  | c, call :: calls =>
    match c.perform P call with
    | (c, .error e) => (c, .error e)
    | (c, .ok out) => ((performAll P c calls).1, (performAll P c calls).2.map (out ++ ·))

/-- All the bytes that the calls are given. -/
def input (calls : List Call) : Bytes := calls.flatMap Call.bytes

/-! ### One call -/

private theorem processLoop_succ (P : Primitives) (input output i n : Nat) (c : AesCtrEncryptor) (m : Memory UInt8) :
    processLoop P input output i (n + 1) (c, m) =
      let r := c.processByte P (m.cells (input + i))
      if r.1.byteCounter = 0 then (.error tooMuchData, r.1, m.store (output + i) [r.2])
      else processLoop P input output (i + 1) n (r.1, m.store (output + i) [r.2]) := by
  have hstep : processLoop P input output i (n + 1) (c, m) =
      (if (c.processByte P (m.cells (input + i))).1.byteCounter = 0 then
        throw tooMuchData >>= fun _ => processLoop P input output (i + 1) n
      else processLoop P input output (i + 1) n : Prog (AesCtrEncryptor × Memory UInt8) Exception Unit)
        ((c.processByte P (m.cells (input + i))).1, m.store (output + i) [(c.processByte P (m.cells (input + i))).2]) :=
    rfl
  rw [hstep]
  dsimp only
  split_ifs <;> rfl

/-- The loop does to the encryptor what `process` does with the bytes still to be read, and writes what
that returns. -/
private theorem processLoop_process {input output length : Nat}
    (hbuffers : input = output ∨ input + length ≤ output ∨ output + length ≤ input) {i n : Nat}
    (hn : i + n = length) (c : AesCtrEncryptor) (m : Memory UInt8) :
    ∃ m', processLoop P input output i n (c, m) =
        ((c.process P (m.load (input + i) n)).2.map fun _ => (), (c.process P (m.load (input + i) n)).1, m') ∧
      ∀ out, (c.process P (m.load (input + i) n)).2 = .ok out → m' = m.store (output + i) out := by
  induction n generalizing i c m with
  | zero =>
    refine ⟨m, rfl, fun out hout => ?_⟩
    cases hout
    exact Memory.store_nil.symm
  | succ n ih =>
    rw [processLoop_succ]
    dsimp only
    obtain ⟨c', b, hbyte⟩ : ∃ c' b, c.processByte P (m.cells (input + i)) = (c', b) := ⟨_, _, rfl⟩
    -- the byte is not written over anything still to be read
    have hahead : (m.store (output + i) [b]).load (input + (i + 1)) n = m.load (input + (i + 1)) n := by
      apply Memory.load_store_other
      rw [List.length_singleton]
      omega
    obtain ⟨m', hloop, hout⟩ := ih (show i + 1 + n = length by omega) c' (m.store (output + i) [b])
    rw [hahead] at hloop hout
    rw [Memory.load, process, hbyte]
    dsimp only
    split_ifs with hcounter
    · refine ⟨_, rfl, fun out h => ?_⟩
      cases h
    · rw [hloop]
      rw [Nat.add_assoc]
      rcases hrest : process P c' (m.load (input + (i + 1)) n) with ⟨c'', e | rest⟩
      · refine ⟨m', rfl, fun out h => ?_⟩
        cases h
      · refine ⟨m', rfl, fun out h => ?_⟩
        cases h
        rw [hout rest (by rw [hrest])]
        exact Memory.store_append rest

private theorem length_process {c : AesCtrEncryptor} {bytes out : Bytes} (h : (c.process P bytes).2 = .ok out) :
    out.length = bytes.length := by
  induction bytes generalizing c out with
  | nil =>
    cases h
    rfl
  | cons b bytes ih =>
    rw [process] at h
    dsimp only at h
    split_ifs at h
    rcases hrest : process P (c.processByte P b).1 bytes with ⟨c', e | rest⟩ <;> rw [hrest] at h
    · cases h
    · cases h
      rw [List.length_cons, List.length_cons, ih (by rw [hrest])]

/-- Whether the output is written over the input or not, the call is `process` on the bytes. -/
theorem perform_eq (P : Primitives) (c : AesCtrEncryptor) (call : Call) :
    c.perform P call = c.process P call.bytes := by
  obtain ⟨m', hloop, hout⟩ := processLoop_process (P := P) call.buffers (Nat.zero_add call.length) c call.memory
  change _ = ((c.process P call.bytes).2.map fun _ => (), (c.process P call.bytes).1, m') at hloop
  change ∀ out, (c.process P call.bytes).2 = .ok out → m' = _ at hout
  unfold perform
  rw [hloop]
  rcases hrun : c.process P call.bytes with ⟨c', e | out⟩
  · rfl
  · have hok : (c.process P call.bytes).2 = .ok out := by rw [hrun]
    have hload : m'.load call.output call.length = out := by
      rw [hout out hok, ← call.length_bytes, ← length_process hok]
      exact Memory.load_store_same
    exact congrArg (fun out => (c', Except.ok out)) hload

/-! ### Successive calls -/

private theorem input_cons (call : Call) (calls : List Call) : input (call :: calls) = call.bytes ++ input calls := rfl

/-- Below the limit no call throws. -/
private theorem performAll_of_lt {key : Buffer aesKeyLen} {nonce : Bytes} {c : AesCtrEncryptor} {n : Nat}
    (h : At P key nonce c n) {calls : List Call} (hn : n + (input calls).length < 2 ^ 32) :
    (performAll P c calls).2 = .ok (ctrXor P key nonce n (input calls)) ∧
      At P key nonce (performAll P c calls).1 (n + (input calls).length) := by
  induction calls generalizing c n with
  | nil => exact ⟨rfl, h⟩
  | cons call calls ih =>
    rw [input_cons, List.length_append] at hn ⊢
    obtain ⟨hone, hat⟩ := process_of_lt h (show n + call.bytes.length < 2 ^ 32 by omega)
    obtain ⟨hrest, hend⟩ := ih hat (by omega)
    rw [performAll, perform_eq]
    generalize c.process P call.bytes = r at hone hat hrest hend
    obtain ⟨c', out⟩ := r
    dsimp only at hone hat hrest hend
    subst hone
    dsimp only
    rw [hrest, ← Nat.add_assoc, ctrXor_append]
    exact ⟨rfl, hend⟩

/-- As long as fewer than 2^32 bytes are given, however they are cut into calls and wherever the
buffers are, the outputs together are the bytes under the keystream. The call that takes the
total to 2^32 throws. -/
theorem performAll_eq_ctrXor (P : Primitives) (key : Buffer aesKeyLen) (nonce : Buffer nonceLen) (calls : List Call)
    (h : (input calls).length < 2 ^ 32) :
    (performAll P (new key nonce.toBytes) calls).2 = .ok (ctrXor P key nonce.toBytes 0 (input calls)) ∧
    ∀ call : Call, 2 ^ 32 ≤ (input calls).length + call.length →
      ((performAll P (new key nonce.toBytes) calls).1.perform P call).2 = .error tooMuchData := by
  have hnew : At P key nonce.toBytes (new key nonce.toBytes) 0 := by
    have hat := @at_new P key nonce.toBytes (Nat.le_of_eq nonce.length_toBytes.symm)
    rwa [List.take_of_length_le (Nat.le_of_eq nonce.length_toBytes)] at hat
  obtain ⟨hall, hat⟩ := @performAll_of_lt P key _ _ 0 hnew calls (by rwa [Nat.zero_add])
  rw [Nat.zero_add] at hat
  refine ⟨hall, fun call hcall => ?_⟩
  rw [perform_eq]
  exact (process_of_ge hat h (by rwa [call.length_bytes])).1

/-- Three bytes in place, none, and two into a buffer of their own. -/
def mixedCalls : List Call :=
  [⟨⟨3, fun i => UInt8.ofNat (i + 1)⟩, 0, 0, 3, .inl rfl⟩, ⟨⟨0, fun _ => 0⟩, 0, 0, 0, .inl rfl⟩,
    ⟨⟨6, fun i => UInt8.ofNat (i + 4)⟩, 0, 4, 2, .inr (.inl (by decide))⟩]

/-- The rest of the 2^32 bytes. -/
def lastCall : Call := ⟨⟨2 ^ 32, fun _ => 0⟩, 0, 0, 2 ^ 32 - 5, .inl rfl⟩

theorem performAll_eq_ctrXor_mixedCalls :
    (performAll plainPrimitives (new Buffer.zero (Buffer.zero : Buffer nonceLen).toBytes) mixedCalls).2 =
        .ok (ctrXor plainPrimitives Buffer.zero (Buffer.zero : Buffer nonceLen).toBytes 0 [1, 2, 3, 4, 5]) ∧
      ((performAll plainPrimitives (new Buffer.zero (Buffer.zero : Buffer nonceLen).toBytes) mixedCalls).1.perform
        plainPrimitives lastCall).2 = .error tooMuchData :=
  have h := performAll_eq_ctrXor plainPrimitives Buffer.zero Buffer.zero mixedCalls (by decide)
  ⟨h.1, h.2 lastCall (by decide)⟩

end AesCtrEncryptor
end GitCrypt
