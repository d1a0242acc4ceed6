import GitCrypt.Library.Memory
import GitCrypt.Library.BufferedWriter

/-! `ofhbuf`, the buffer under the stream that writes to a coprocess. -/
namespace GitCrypt

/-- How a call on a stream buffer can fail: by an exception of the handle's function, or by an
access outside of the buffer. -/
inductive BufferError (ε : Type) where
  | thrown (e : ε)
  | outOfBounds
  deriving DecidableEq

/-- `catch (...)`, with the result after it. An access outside of the buffer is no exception. -/
def BufferError.catchAll {σ ε β : Type} (b : β) : BufferError ε → Prog σ (BufferError ε) β
  | .thrown _ => pure b
  | .outOfBounds => throw .outOfBounds

/-- `traits_type::eof()` -/
def eof : Int := -1

/-- The fields of `ofhbuf`, with the pointers of its `std::streambuf` as offsets into `buffer`. The
handle is whether the pointer is not null, and `sink` is what it points to. -/
structure Ofhbuf (ω α : Type) where
  handle : Bool
  sink : Sink ω α
  buffer : Memory α
  bufferSize : Nat
  pbase : Nat
  pptr : Nat
  epptr : Nat

namespace Ofhbuf
variable {ω ε α : Type}

abbrev Call (ω ε α β : Type) := Prog (Ofhbuf ω α) (BufferError ε) β

def defaultBufferSize : Nat := 8192

def setp (first last : Nat) (s : Ofhbuf ω α) : Ofhbuf ω α := { s with pbase := first, pptr := first, epptr := last }

def pbump (n : Nat) (s : Ofhbuf ω α) : Ofhbuf ω α := { s with pptr := s.pptr + n }

def resetBuffer (s : Ofhbuf ω α) : Ofhbuf ω α := s.setp 0 (s.bufferSize - 1)

/-- The constructor. The cells of `new char[default_buffer_size]` hold anything. -/
def create (handle : Bool) (sink : Sink ω α) (cells : Nat → α) : Ofhbuf ω α :=
  resetBuffer ⟨handle, sink, ⟨defaultBufferSize, cells⟩, defaultBufferSize, 0, 0, 0⟩

/-- `*p = c` -/
def storeAt (p : Nat) (c : α) : Call ω ε α Unit := do
  let s ← get
  if s.buffer.Inside p 1 then set { s with buffer := s.buffer.store p [c] }
  else throw .outOfBounds

def loadFrom (p n : Nat) : Call ω ε α (List α) := do
  let s ← get
  if s.buffer.Inside p n then return s.buffer.load p n
  else throw .outOfBounds

variable (f : WriteFun ω ε α)

/-- The loop over `write_fun`. -/
def writeLoop (block : List α) : Call ω ε α Unit :=
  fun s => ((f.writeAll block s.sink).1.mapError .thrown, { s with sink := (f.writeAll block s.sink).2 })

/-- `overflow (c)`, where no `c` is the end-of-file value. -/
def overflow (c : Option α) : Call ω ε α Int := do
  let s ← get
  let p := s.pbase
  let bytesToWrite := s.pptr - p
  let bytesToWrite ← match c with
    | some c => do
      storeAt s.pptr c
      pure (bytesToWrite + 1)
    | none => pure bytesToWrite
  let block ← loadFrom p bytesToWrite
  writeLoop f block
  modify resetBuffer
  return 0

def sync : Call ω ε α Int := do
  let result ← overflow f none
  return if result ≠ eof then 0 else -1

/-- `std::streambuf::sputc`. The result is whether the character was put. -/
def sputc (c : α) : Call ω ε α Bool := do
  let s ← get
  if s.pptr < s.epptr then
    storeAt s.pptr c
    modify (pbump 1)
    return true
  else
    let result ← overflow f (some c)
    return result ≠ eof

/-- `std::streambuf::xsputn` puts one character after the other. -/
def streambufXsputn : List α → Call ω ε α Nat
  | [] => return 0
  | c :: block => do
    if ← sputc f c then
      let n ← streambufXsputn block
      return n + 1
    else return 0

def xsputn (block : List α) : Call ω ε α Nat := do
  let s ← get
  if block.length < min 4096 (s.epptr - s.pptr) then streambufXsputn f block
  else
    if s.pbase ≠ s.pptr then
      let _ ← overflow f none
    writeLoop f block
    return block.length

/-- `setbuf (s, n)`, by whether `s` is null. The distance that `pbump` gets is read after `setp`. -/
def setbuf (null : Bool) (n : Nat) : Call ω ε α Unit := do
  if null = true ∧ n = 0 then
    modify fun s => s.setp s.pbase s.pptr
    modify fun s => s.pbump (s.pptr - s.pbase)
    modify fun s => { s with bufferSize := 1 }

/-- The destructor: it ignores what `sync` throws. -/
def destroy : Call ω ε α Unit := do
  let s ← get
  if s.handle = true then
    tryCatch (do let _ ← sync f) (BufferError.catchAll ())

/-- A call that a user of the stream makes. -/
inductive Op (α : Type) where
  | put (c : α)
  | write (block : List α)
  | sync
  | unbuffered
  deriving DecidableEq

/-- The bytes that a call puts. -/
def Op.bytes : Op α → List α
  | put c => [c]
  | write block => block
  | sync => []
  | unbuffered => []

def perform : Op α → Call ω ε α Unit
  | .put c => do let _ ← sputc f c
  | .write block => do let _ ← xsputn f block
  | .sync => do let _ ← Ofhbuf.sync f
  | .unbuffered => setbuf true 0

theorem Op.buffered_cons {op : Op α} {ops : List (Op α)} (h : .unbuffered ∉ op :: ops) :
    op ≠ .unbuffered ∧ .unbuffered ∉ ops := by
  rw [List.mem_cons, not_or] at h
  exact ⟨Ne.symm h.1, h.2⟩

/-- All the bytes that the calls put. -/
def bytesPut (ops : List (Op α)) : List α := ops.flatMap Op.bytes

/-- The calls one after the other, up to the first that throws. -/
def performAll (ops : List (Op α)) : Call ω ε α Unit := forM ops (perform f)

/-! ### What a call does to the bytes -/

/-- The pointers are in order and leave one more cell for `overflow`. -/
structure Wf (s : Ofhbuf ω α) : Prop where
  pbase : s.pbase = 0
  pptr : s.pptr ≤ s.epptr
  epptr : s.epptr < s.buffer.size
  bufferSize : 1 ≤ s.bufferSize ∧ s.bufferSize ≤ s.buffer.size

/-- The bytes in the buffer that have not been written yet. -/
def pending (s : Ofhbuf ω α) : List α := s.buffer.load s.pbase (s.pptr - s.pbase)

def writer (s : Ofhbuf ω α) : BufferedWriter ω α := ⟨s.sink, s.pending⟩

/-- What a call does to the bytes, by the room that is left. -/
def transfer (s : Ofhbuf ω α) : Op α → Transfer α
  | .put c => if s.pptr < s.epptr then .keep [c] else .flush (some c)
  | .write block => if block.length < min 4096 (s.epptr - s.pptr) then .keep block else .direct block
  | .sync => .flush none
  | .unbuffered => .drop

theorem transfer_bytes (s : Ofhbuf ω α) (op : Op α) : (transfer s op).bytes = op.bytes := by
  cases op with
  | put c => simp only [transfer]; split_ifs <;> rfl
  | write block => simp only [transfer]; split_ifs <;> rfl
  | sync => rfl
  | unbuffered => rfl

theorem transfer_ne_drop (s : Ofhbuf ω α) {op : Op α} (hop : op ≠ .unbuffered) : transfer s op ≠ .drop := by
  cases op with
  | put c => simp only [transfer]; split_ifs <;> nofun
  | write block => simp only [transfer]; split_ifs <;> nofun
  | sync => nofun
  | unbuffered => exact absurd rfl hop

/-- The call ends as the transfer does, and a call that returns returns `b`. No access was outside
of the buffer. -/
inductive Matches {β : Type} (b : β) :
    Except (BufferError ε) β × Ofhbuf ω α → Except ε Unit × BufferedWriter ω α → Prop where
  | returned (s : Ofhbuf ω α) (h : s.Wf) : Matches b (.ok b, s) (.ok (), s.writer)
  | thrown (e : ε) (s : Ofhbuf ω α) (h : s.Wf) : Matches b (.error (.thrown e), s) (.error e, s.writer)

variable {f : WriteFun ω ε α} {s : Ofhbuf ω α} {block : List α} {c : Option α} {sink : Sink ω α} {e : ε}

theorem storeAt_ok {p : Nat} (c : α) (h : s.buffer.Inside p 1) :
    (storeAt p c : Call ω ε α Unit) s = (.ok (), { s with buffer := s.buffer.store p [c] }) := by
  change (if s.buffer.Inside p 1 then set { s with buffer := s.buffer.store p [c] } else throw .outOfBounds :
    Call ω ε α Unit) s = _
  rw [if_pos h]
  rfl

theorem loadFrom_ok {p n : Nat} (h : s.buffer.Inside p n) :
    (loadFrom p n : Call ω ε α (List α)) s = (.ok (s.buffer.load p n), s) := by
  change (if s.buffer.Inside p n then pure (s.buffer.load p n) else throw .outOfBounds :
    Call ω ε α (List α)) s = _
  rw [if_pos h]
  rfl

theorem writeLoop_ok (h : f.writeAll block s.sink = (.ok (), sink)) :
    writeLoop f block s = (.ok (), { s with sink := sink }) := by
  rw [writeLoop, h]
  rfl

theorem writeLoop_error (h : f.writeAll block s.sink = (.error e, sink)) :
    writeLoop f block s = (.error (.thrown e), { s with sink := sink }) := by
  rw [writeLoop, h]
  rfl

theorem resetBuffer_wf (h : 1 ≤ s.bufferSize ∧ s.bufferSize ≤ s.buffer.size) : (resetBuffer s).Wf :=
  ⟨rfl, Nat.zero_le _, show s.bufferSize - 1 < s.buffer.size by omega, h⟩

theorem create_wf (handle : Bool) (sink : Sink ω α) (cells : Nat → α) : (create handle sink cells).Wf :=
  resetBuffer_wf ⟨show 1 ≤ 8192 by decide, Nat.le_refl 8192⟩

theorem pending_eq (h : s.Wf) : s.pending = s.buffer.load 0 s.pptr := by
  rw [pending, h.pbase, Nat.sub_zero]

/-- The block that `overflow` writes is what is pending, with `c` behind it in the cell that is
left. -/
private theorem overflow_run (h : s.Wf) (c : Option α) :
    overflow f c s = (do
      writeLoop f (s.pending ++ c.toList)
      modify resetBuffer
      return 0 : Call ω ε α Int) { s with buffer := s.buffer.store s.pptr c.toList } := by
  have hsize := h.epptr
  have hle := h.pptr
  cases c with
  | none =>
    have hin : s.buffer.Inside s.pbase (s.pptr - s.pbase) := by
      rw [h.pbase]
      change 0 + (s.pptr - 0) ≤ s.buffer.size
      omega
    change (loadFrom s.pbase (s.pptr - s.pbase) >>= _) s = _
    rw [Prog.bind_of_ok (loadFrom_ok hin), Option.toList_none, List.append_nil, Memory.store_nil]
    rfl
  | some c =>
    have hin : s.buffer.Inside s.pptr 1 := by
      change s.pptr + 1 ≤ s.buffer.size
      omega
    have hblock : (s.buffer.store s.pptr [c]).Inside s.pbase (s.pptr - s.pbase + 1) := by
      rw [h.pbase]
      change 0 + (s.pptr - 0 + 1) ≤ s.buffer.size
      omega
    have hload : (s.buffer.store s.pptr [c]).load s.pbase (s.pptr - s.pbase + 1) = s.pending ++ [c] := by
      have hstart : s.pbase + (s.pptr - s.pbase) = s.pptr := by rw [h.pbase]; omega
      rw [Memory.load_add, hstart, Memory.load_store_other (Or.inl (Nat.le_of_eq hstart)), pending]
      exact congrArg _ Memory.load_store_same
    change (storeAt s.pptr c >>= _) s = _
    rw [Prog.bind_of_ok (storeAt_ok c hin)]
    change (loadFrom s.pbase (s.pptr - s.pbase + 1) >>= _) { s with buffer := s.buffer.store s.pptr [c] } = _
    rw [Prog.bind_of_ok (loadFrom_ok (s := { s with buffer := s.buffer.store s.pptr [c] }) hblock)]
    change (writeLoop f ((s.buffer.store s.pptr [c]).load s.pbase (s.pptr - s.pbase + 1)) >>= _) _ = _
    rw [hload]
    rfl

theorem overflow_matches (h : s.Wf) (c : Option α) :
    Matches 0 (overflow f c s) (BufferedWriter.flush f c s.writer) := by
  rw [overflow_run h]
  let t : Ofhbuf ω α := { s with buffer := s.buffer.store s.pptr c.toList }
  rcases hr : f.writeAll (s.pending ++ c.toList) s.sink with ⟨e | u, sink⟩
  · have hkept : t.pending = s.pending := by
      apply Memory.load_store_other
      change s.pbase + (s.pptr - s.pbase) ≤ s.pptr ∨ _
      rw [h.pbase]
      exact Or.inl (by omega)
    have hwriter : BufferedWriter.flush f c s.writer = (.error e, { t with sink := sink }.writer) := by
      rw [BufferedWriter.flush_error (w := s.writer) hr]
      change _ = (Except.error e, (⟨sink, t.pending⟩ : BufferedWriter ω α))
      rw [hkept]
      rfl
    rw [Prog.bind_of_error (writeLoop_error (s := t) hr), hwriter]
    exact .thrown e { t with sink := sink } ⟨h.pbase, h.pptr, h.epptr, h.bufferSize⟩
  · rw [Prog.bind_of_ok (writeLoop_ok (s := t) hr), BufferedWriter.flush_ok (w := s.writer) hr]
    exact .returned (resetBuffer { t with sink := sink }) (resetBuffer_wf h.bufferSize)

namespace Matches
variable {β γ : Type} {b : β} {b' : γ} {m : Call ω ε α β} {k : β → Call ω ε α γ} {w : BufferedWriter ω α}
  {a a' : Prog (BufferedWriter ω α) ε Unit}

theorem bind (hm : Matches b (m s) (a w)) (hk : ∀ s' : Ofhbuf ω α, s'.Wf → Matches b' (k b s') (a' s'.writer)) :
    Matches b' ((m >>= k) s) ((a >>= fun _ => a') w) := by
  generalize hr : m s = r at hm
  generalize hw : a w = rw' at hm
  cases hm with
  | returned s' h =>
    rw [Prog.bind_of_ok hr, Prog.bind_of_ok hw]
    exact hk s' h
  | thrown e s' h =>
    rw [Prog.bind_of_error hr, Prog.bind_of_error hw]
    exact .thrown e s' h

theorem state {r : Except ε Unit × BufferedWriter ω α} (h : Matches b (m s) r) :
    (m s).2.Wf ∧ (m s).2.writer = r.2 := by
  generalize m s = r' at h
  cases h with
  | returned s' h => exact ⟨h, rfl⟩
  | thrown e s' h => exact ⟨h, rfl⟩

/-- What is done to the result alone does not change the bytes. -/
theorem bind_pure (hm : Matches b (m s) (a w)) (hk : k b = pure b') : Matches b' ((m >>= k) s) (a w) := by
  generalize hr : m s = r at hm
  generalize hw : a w = rw' at hm ⊢
  cases hm with
  | returned s' h =>
    rw [Prog.bind_of_ok hr, hk]
    exact .returned s' h
  | thrown e s' h =>
    rw [Prog.bind_of_error hr]
    exact .thrown e s' h

end Matches

theorem writeLoop_matches (h : s.Wf) (block : List α) :
    Matches () (writeLoop f block s) (BufferedWriter.send f block s.writer) := by
  have hwf (sink : Sink ω α) : Wf { s with sink := sink } := ⟨h.pbase, h.pptr, h.epptr, h.bufferSize⟩
  rcases hr : f.writeAll block s.sink with ⟨e | u, sink⟩
  · rw [writeLoop_error hr, BufferedWriter.send_error (w := s.writer) hr]
    exact .thrown e { s with sink := sink } (hwf sink)
  · rw [writeLoop_ok hr, BufferedWriter.send_ok (w := s.writer) hr]
    exact .returned { s with sink := sink } (hwf sink)

theorem sync_matches (h : s.Wf) : Matches 0 (sync f s) (BufferedWriter.flush f none s.writer) :=
  (overflow_matches h none).bind_pure rfl

/-- Where there is room, a character goes into the next cell. -/
theorem sputc_room (h : s.Wf) (hroom : s.pptr < s.epptr) (c : α) :
    ∃ s' : Ofhbuf ω α, sputc f c s = (.ok true, s') ∧ s'.Wf ∧ s'.writer = ⟨s.sink, s.pending ++ [c]⟩ ∧
      s'.epptr - s'.pptr = s.epptr - s.pptr - 1 := by
  have hin : s.buffer.Inside s.pptr 1 := by
    have := h.epptr
    change s.pptr + 1 ≤ s.buffer.size
    omega
  refine ⟨pbump 1 { s with buffer := s.buffer.store s.pptr [c] }, ?_, ?_, ?_, ?_⟩
  · unfold sputc
    change (if s.pptr < s.epptr then _ else _ : Call ω ε α Bool) s = _
    rw [if_pos hroom, Prog.bind_of_ok (storeAt_ok c hin)]
    rfl
  · exact ⟨h.pbase, hroom, h.epptr, h.bufferSize⟩
  · have hload : (s.buffer.store s.pptr [c]).load s.pbase (s.pptr + 1 - s.pbase) = s.pending ++ [c] := by
      rw [h.pbase, pending_eq h, Nat.sub_zero, Memory.load_add, Nat.zero_add,
        Memory.load_store_other (Or.inl (by omega))]
      exact congrArg _ Memory.load_store_same
    exact congrArg (BufferedWriter.mk s.sink) hload
  · change s.epptr - (s.pptr + 1) = _
    omega

private theorem sputc_full (h : s.Wf) (hroom : ¬ s.pptr < s.epptr) (c : α) :
    Matches true (sputc f c s) (BufferedWriter.flush f (some c) s.writer) := by
  unfold sputc
  change Matches true ((if s.pptr < s.epptr then _ else _ : Call ω ε α Bool) s) _
  rw [if_neg hroom]
  exact (overflow_matches h (some c)).bind_pure rfl

private theorem sputc_matches (h : s.Wf) (c : α) :
    Matches true (sputc f c s) (BufferedWriter.act f (transfer s (.put c)) s.writer) := by
  unfold transfer
  split_ifs with hroom
  · obtain ⟨s', hrun, hwf, hwriter, -⟩ := sputc_room (f := f) h hroom c
    have hkeep : BufferedWriter.act f (.keep [c]) s.writer = (.ok (), s'.writer) := by rw [hwriter]; rfl
    rw [hrun, hkeep]
    exact .returned s' hwf
  · exact sputc_full h hroom c

private theorem streambufXsputn_room (h : s.Wf) (block : List α) (hroom : block.length ≤ s.epptr - s.pptr) :
    ∃ s' : Ofhbuf ω α, streambufXsputn f block s = (.ok block.length, s') ∧ s'.Wf ∧
      s'.writer = ⟨s.sink, s.pending ++ block⟩ := by
  induction block generalizing s with
  | nil => exact ⟨s, rfl, h, by rw [List.append_nil]; rfl⟩
  | cons c block ih =>
    rw [List.length_cons] at hroom
    obtain ⟨s₁, hput, hwf₁, hwriter₁, hroom₁⟩ := sputc_room (f := f) h (by omega) c
    obtain ⟨s₂, hrest, hwf₂, hwriter₂⟩ := ih hwf₁ (by omega)
    refine ⟨s₂, ?_, hwf₂, ?_⟩
    · change (sputc f c >>= _) s = _
      rw [Prog.bind_of_ok hput]
      change (streambufXsputn f block >>= _) s₁ = _
      rw [Prog.bind_of_ok hrest]
      rfl
    · have hsink : s₁.sink = s.sink := congrArg BufferedWriter.sink hwriter₁
      have hpending : s₁.pending = s.pending ++ [c] := congrArg BufferedWriter.pending hwriter₁
      rw [hwriter₂, hsink, hpending, List.append_assoc, List.singleton_append]

theorem xsputn_matches (h : s.Wf) (block : List α) :
    Matches block.length (xsputn f block s) (BufferedWriter.act f (transfer s (.write block)) s.writer) := by
  unfold transfer xsputn
  change Matches block.length ((if block.length < min 4096 (s.epptr - s.pptr) then _ else _ : Call ω ε α Nat) s) _
  dsimp only
  split_ifs with hshort hflush
  · have hroom : block.length ≤ s.epptr - s.pptr := by omega
    obtain ⟨s', hrun, hwf, hwriter⟩ := streambufXsputn_room (f := f) h block hroom
    have hkeep : BufferedWriter.act f (.keep block) s.writer = (.ok (), s'.writer) := by rw [hwriter]; rfl
    rw [hrun, hkeep]
    exact .returned s' hwf
  · exact (overflow_matches h none).bind fun s' h' => (writeLoop_matches h' block).bind_pure rfl
  · have hpending : s.pending = [] := by
      rw [pending, not_not.mp hflush, Nat.sub_self]
      rfl
    have hdirect : BufferedWriter.act f (.direct block) s.writer = BufferedWriter.send f block s.writer := by
      change (BufferedWriter.flush f none >>= fun _ => BufferedWriter.send f block) s.writer = _
      rw [Prog.bind_of_ok (BufferedWriter.flush_empty f hpending)]
    rw [hdirect]
    exact (writeLoop_matches h block).bind_pure rfl

/-- The switch to unbuffered puts the pointer back to the start of the buffer. -/
private theorem setbuf_run (s : Ofhbuf ω α) :
    (setbuf true 0 : Call ω ε α Unit) s =
      (.ok (), { s with pptr := s.pbase + (s.pbase - s.pbase), epptr := s.pptr, bufferSize := 1 }) := rfl

private theorem setbuf_matches (h : s.Wf) : Matches () (setbuf true 0 s) (BufferedWriter.act f .drop s.writer) := by
  let t : Ofhbuf ω α := { s with pptr := s.pbase + (s.pbase - s.pbase), epptr := s.pptr, bufferSize := 1 }
  have hpptr : t.pptr = 0 := by
    change s.pbase + (s.pbase - s.pbase) = 0
    rw [h.pbase]
  have hdrop : BufferedWriter.act f .drop s.writer = (.ok (), t.writer) := by
    change _ = (Except.ok (), (⟨s.sink, t.buffer.load t.pbase (t.pptr - t.pbase)⟩ : BufferedWriter ω α))
    rw [hpptr, Nat.zero_sub]
    rfl
  have hsize := h.epptr
  have hle := h.pptr
  rw [setbuf_run, hdrop]
  exact .returned t ⟨h.pbase, hpptr ▸ Nat.zero_le _, show s.pptr < s.buffer.size by omega,
    Nat.le_refl 1, show 1 ≤ s.buffer.size by omega⟩

theorem perform_matches (h : s.Wf) (op : Op α) :
    Matches () (perform f op s) (BufferedWriter.act f (transfer s op) s.writer) := by
  cases op with
  | put c => exact (sputc_matches h c).bind_pure rfl
  | write block => exact (xsputn_matches h block).bind_pure rfl
  | sync => exact (sync_matches h).bind_pure rfl
  | unbuffered => exact setbuf_matches h

/-! ### The handle -/

abbrev KeepsHandle {β : Type} (m : Call ω ε α β) : Prop := Keeps (fun s : Ofhbuf ω α => s.handle) m

theorem storeAt_keepsHandle (p : Nat) (c : α) : KeepsHandle (storeAt p c : Call ω ε α Unit) := by
  intro s
  change ((if s.buffer.Inside p 1 then _ else _ : Call ω ε α Unit) s).2.handle = s.handle
  split_ifs <;> rfl

private theorem loadFrom_keepsHandle (p n : Nat) : KeepsHandle (loadFrom p n : Call ω ε α (List α)) := by
  intro s
  change ((if s.buffer.Inside p n then _ else _ : Call ω ε α (List α)) s).2.handle = s.handle
  split_ifs <;> rfl

theorem overflow_keepsHandle (f : WriteFun ω ε α) (c : Option α) : KeepsHandle (overflow f c) := by
  have hout (p n : Nat) : KeepsHandle (loadFrom p n >>= fun block => do
      writeLoop f block
      modify resetBuffer
      return 0 : Call ω ε α Int) :=
    .bind (loadFrom_keepsHandle p n) fun block => .bind (fun _ => rfl) fun _ => fun _ => rfl
  apply Keeps.bind Keeps.get
  intro s
  cases c with
  | none => exact hout s.pbase (s.pptr - s.pbase)
  | some c => exact .bind (storeAt_keepsHandle s.pptr c) fun _ => hout s.pbase (s.pptr - s.pbase + 1)

theorem sputc_keepsHandle (f : WriteFun ω ε α) (c : α) : KeepsHandle (sputc f c) := by
  apply Keeps.bind Keeps.get
  intro s
  apply Keeps.ite
  · exact .bind (storeAt_keepsHandle s.pptr c) fun _ => fun _ => rfl
  · exact .bind (overflow_keepsHandle f (some c)) fun _ => .pure _

private theorem streambufXsputn_keepsHandle (f : WriteFun ω ε α) (block : List α) :
    KeepsHandle (streambufXsputn f block) := by
  induction block with
  | nil => exact .pure _
  | cons c block ih =>
    apply Keeps.bind (sputc_keepsHandle f c)
    intro put
    exact .ite (.bind ih fun _ => .pure _) (.pure _)

theorem xsputn_keepsHandle (f : WriteFun ω ε α) (block : List α) : KeepsHandle (xsputn f block) := by
  have hwrite : KeepsHandle (writeLoop f block >>= fun _ => return block.length) :=
    .bind (fun _ => rfl) fun _ => .pure _
  apply Keeps.bind Keeps.get
  intro s
  exact .ite (streambufXsputn_keepsHandle f block)
    (.ite (.bind (overflow_keepsHandle f none) fun _ => hwrite) hwrite)

theorem perform_keepsHandle (f : WriteFun ω ε α) (op : Op α) : KeepsHandle (perform f op) := by
  cases op with
  | put c => exact .bind (sputc_keepsHandle f c) fun _ => .pure _
  | write block => exact .bind (xsputn_keepsHandle f block) fun _ => .pure _
  | sync => exact .bind (.bind (overflow_keepsHandle f none) fun _ => .pure _) fun _ => .pure _
  | unbuffered => exact fun s => rfl

theorem performAll_keepsHandle (f : WriteFun ω ε α) (ops : List (Op α)) : KeepsHandle (performAll f ops) :=
  .forM fun op => perform_keepsHandle f op

theorem destroy_of_null (f : WriteFun ω ε α) (h : s.handle = false) : destroy f s = (.ok (), s) := by
  unfold destroy
  change ((if s.handle = true then _ else _ : Call ω ε α Unit) s) = _
  rw [if_neg (by rw [h]; exact Bool.false_ne_true)]
  rfl

end Ofhbuf
end GitCrypt
