import GitCrypt.Ofhbuf

/-! `ifhbuf`, the buffer under the stream that reads from a coprocess. -/
namespace GitCrypt

/-- The fields of `ifhbuf`, with the pointers of its `std::streambuf` as offsets into `buffer`, and
the bytes that its calls have delivered so far. -/
structure Ifhbuf (ω α : Type) where
  source : Source ω α
  buffer : Memory α
  bufferSize : Nat
  eback : Nat
  gptr : Nat
  egptr : Nat
  delivered : List α

namespace Ifhbuf
variable {ω ε α : Type}

abbrev Call (ω ε α β : Type) := Prog (Ifhbuf ω α) (BufferError ε) β

def defaultBufferSize : Nat := 8192

def putbackSize : Nat := 4

def resetBuffer (nputback nread : Nat) (s : Ifhbuf ω α) : Ifhbuf ω α :=
  { s with eback := putbackSize - nputback, gptr := putbackSize, egptr := putbackSize + nread }

/-- The constructor. The cells of the new array hold anything. -/
def create (source : Source ω α) (cells : Nat → α) : Ifhbuf ω α :=
  resetBuffer 0 0 ⟨source, ⟨defaultBufferSize + putbackSize, cells⟩, defaultBufferSize, 0, 0, 0, []⟩

def loadFrom (p n : Nat) : Call ω ε α (List α) := do
  let s ← get
  if s.buffer.Inside p n then return s.buffer.load p n
  else throw .outOfBounds

def storeAt (p : Nat) (bytes : List α) : Call ω ε α Unit := do
  let s ← get
  if s.buffer.Inside p bytes.length then set { s with buffer := s.buffer.store p bytes }
  else throw .outOfBounds

def memmove (dest src n : Nat) : Call ω ε α Unit := do
  let bytes ← loadFrom src n
  storeAt dest bytes

variable (f : ReadFun ω ε α)

/-- `read_fun (handle, buffer + p, n)`, which may write to all of the `n` cells. -/
def readInto (p n : Nat) : Call ω ε α Nat := do
  let s ← get
  if s.buffer.Inside p n then
    match f.call n s.source with
    | (.error e, source) => do
      set { s with source := source }
      throw (.thrown e)
    | (.ok bytes, source) => do
      set { s with source := source, buffer := s.buffer.store p bytes }
      return bytes.length
  else throw .outOfBounds

/-- The true underflow, where no bytes are left in the buffer. The result is false at the end. -/
def refill : Call ω ε α Bool := do
  let s ← get
  let nputback := min (s.gptr - s.eback) putbackSize
  memmove (putbackSize - nputback) (s.gptr - nputback) nputback
  let nread ← readInto f putbackSize s.bufferSize
  if nread = 0 then return false
  modify (resetBuffer nputback nread)
  return true

/-- `*gptr()` -/
def nextCharacter : Call ω ε α (Option α) := do
  let s ← get
  let bytes ← loadFrom s.gptr 1
  return bytes.head?

/-- `underflow`, where none is the end-of-file value. -/
def underflow : Call ω ε α (Option α) := do
  let s ← get
  if s.egptr ≤ s.gptr then
    if ← refill f then nextCharacter else return none
  else nextCharacter

/-- `std::streambuf::sgetc` -/
def sgetc : Call ω ε α (Option α) := do
  let s ← get
  if s.gptr < s.egptr then nextCharacter else underflow f

/-- `*gptr()` with `gbump (1)`: the character is delivered. -/
def takeCharacter : Call ω ε α (Option α) := do
  let s ← get
  let bytes ← loadFrom s.gptr 1
  modify fun s => { s with gptr := s.gptr + 1, delivered := s.delivered ++ bytes }
  return bytes.head?

/-- `std::streambuf::sbumpc`, with the default `uflow`. -/
def sbumpc : Call ω ε α (Option α) := do
  let s ← get
  if s.gptr < s.egptr then takeCharacter
  else
    match ← underflow f with
    | none => return none
    | some _ => takeCharacter

/-- `std::streambuf::xsgetn` gets one character after the other, until the end. -/
def streambufXsgetn : Nat → Call ω ε α (List α)
  | 0 => return []
  | n + 1 => do
    match ← sbumpc f with
    | none => return []
    | some c =>
      let bytes ← streambufXsgetn n
      return c :: bytes

/-- The loop over `read_fun` in `xsgetn`. -/
def readLoop (n : Nat) : Call ω ε α (List α) := fun s =>
  ((f.readLoop n s.source).1.mapError .thrown, { s with source := (f.readLoop n s.source).2 })

def xsgetn (n : Nat) : Call ω ε α (List α) := do
  let s ← get
  let bytesAvailable := s.egptr - s.gptr
  if n < bytesAvailable + 4096 then streambufXsgetn f n
  else
    let available ← loadFrom s.gptr bytesAvailable
    let direct ← readLoop f (n - bytesAvailable)
    let bytes := available ++ direct
    let nputback := min bytes.length putbackSize
    storeAt (putbackSize - nputback) (bytes.drop (bytes.length - nputback))
    modify (resetBuffer nputback 0)
    modify fun s => { s with delivered := s.delivered ++ bytes }
    return bytes

/-- `setbuf (s, n)`, by whether `s` is null. -/
def setbuf (null : Bool) (n : Nat) : Call ω ε α Unit := do
  if null = true ∧ n = 0 then modify fun s => { s with bufferSize := 1 }

/-- A call that a user of the stream makes. -/
inductive Op where
  | peek
  | get
  | read (n : Nat)
  | unbuffered
  deriving DecidableEq

/-- The result is what the call delivers to the reader. -/
def perform : Op → Call ω ε α (List α)
  | .peek => do
    let _ ← sgetc f
    return []
  | .get => do
    let c ← sbumpc f
    return c.toList
  | .read n => xsgetn f n
  | .unbuffered => do
    setbuf true 0
    return []

/-- The calls one after the other, up to the first that throws, and all that they deliver. -/
def performAll : List Op → Call ω ε α (List α)
  | [] => return []
  | op :: ops => do
    let bytes ← perform f op
    let more ← performAll ops
    return bytes ++ more

/-! ### The state of the buffer -/

/-- The pointers are in order, and `read_fun` may fill the buffer after the putback area. -/
structure Wf (s : Ifhbuf ω α) : Prop where
  eback : s.eback ≤ putbackSize
  gptr : putbackSize ≤ s.gptr
  order : s.gptr ≤ s.egptr
  egptr : s.egptr ≤ s.buffer.size
  pos : 1 ≤ s.bufferSize
  room : putbackSize + s.bufferSize ≤ s.buffer.size

/-- The bytes in the buffer that have not been delivered yet. -/
def available (s : Ifhbuf ω α) : List α := s.buffer.load s.gptr (s.egptr - s.gptr)

/-- What is still to be delivered. -/
def ahead (s : Ifhbuf ω α) : List α := s.available ++ s.source.rest

/-- The bytes from `eback` to `gptr`, to step back over. -/
def putbackArea (s : Ifhbuf ω α) : List α := s.buffer.load s.eback (s.gptr - s.eback)

/-- They are the bytes that were delivered last. -/
def Putback (s : Ifhbuf ω α) : Prop := s.putbackArea <:+ s.delivered

/-- The bytes in front of the read position that an underflow moves below `putbackSize`. -/
def nputback (s : Ifhbuf ω α) : Nat := min (s.gptr - s.eback) putbackSize

def moved (s : Ifhbuf ω α) : Ifhbuf ω α :=
  { s with buffer := s.buffer.store (putbackSize - s.nputback) (s.buffer.load (s.gptr - s.nputback) s.nputback) }

def filled (s : Ifhbuf ω α) (bytes : List α) (source : Source ω α) : Ifhbuf ω α :=
  resetBuffer s.nputback bytes.length
    { s.moved with buffer := s.moved.buffer.store putbackSize bytes, source := source }

variable {f : ReadFun ω ε α} {s : Ifhbuf ω α} {bytes : List α} {source : Source ω α} {c : α}

theorem create_wf (source : Source ω α) (cells : Nat → α) : (create source cells).Wf :=
  ⟨Nat.le_refl 4, Nat.le_refl 4, Nat.le_refl 4, show 4 ≤ 8196 by decide, show 1 ≤ 8192 by decide,
    show 4 + 8192 ≤ 8196 by decide⟩

theorem available_of_empty (h : s.egptr ≤ s.gptr) : s.available = [] := by
  rw [available, Nat.sub_eq_zero_of_le h]
  rfl

theorem available_cons (h : s.gptr < s.egptr) :
    s.available = s.buffer.cells s.gptr :: s.buffer.load (s.gptr + 1) (s.egptr - (s.gptr + 1)) := by
  rw [available, show s.egptr - s.gptr = (s.egptr - (s.gptr + 1)) + 1 by omega, Memory.load]

private theorem moved_wf (h : s.Wf) (source : Source ω α) : Wf { s.moved with source := source } :=
  ⟨h.eback, h.gptr, h.order, h.egptr, h.pos, h.room⟩

private theorem filled_wf (h : s.Wf) (hlen : bytes.length ≤ s.bufferSize) : (s.filled bytes source).Wf := by
  have hroom := h.room
  have hfits : putbackSize + bytes.length ≤ s.buffer.size := by omega
  exact ⟨Nat.sub_le _ _, Nat.le_refl _, Nat.le_add_right _ _, hfits, h.pos, hroom⟩

theorem filled_available : (s.filled bytes source).available = bytes := by
  change (s.moved.buffer.store putbackSize bytes).load putbackSize (putbackSize + bytes.length - putbackSize) = bytes
  rw [Nat.add_sub_cancel_left]
  exact Memory.load_store_same

theorem moved_load (s : Ifhbuf ω α) :
    s.moved.buffer.load (putbackSize - s.nputback) s.nputback = s.buffer.load (s.gptr - s.nputback) s.nputback := by
  have hsame : s.moved.buffer.load (putbackSize - s.nputback)
      (s.buffer.load (s.gptr - s.nputback) s.nputback).length = _ := Memory.load_store_same
  rwa [Memory.length_load] at hsame

private theorem load_suffix (m : Memory α) (first : Nat) {k n : Nat} (h : k ≤ n) :
    m.load (first + (n - k)) k <:+ m.load first n := by
  refine ⟨m.load first (n - k), ?_⟩
  rw [← Memory.load_add, Nat.sub_add_cancel h]

private theorem filled_putback (h : s.Wf) (hp : s.Putback) : (s.filled bytes source).Putback := by
  have hle : s.nputback ≤ s.gptr - s.eback := Nat.min_le_left _ _
  have hle' : s.nputback ≤ putbackSize := Nat.min_le_right _ _
  have horder := Nat.le_trans h.eback h.gptr
  have harea : (s.filled bytes source).putbackArea = s.buffer.load (s.gptr - s.nputback) s.nputback := by
    change (s.moved.buffer.store putbackSize bytes).load (putbackSize - s.nputback)
      (putbackSize - (putbackSize - s.nputback)) = _
    rw [Nat.sub_sub_self hle', Memory.load_store_other (Or.inl (Nat.le_of_eq (Nat.sub_add_cancel hle'))), moved_load]
  have hlast := load_suffix s.buffer s.eback hle
  rw [show s.eback + (s.gptr - s.eback - s.nputback) = s.gptr - s.nputback by omega] at hlast
  unfold Putback
  rw [harea]
  exact hlast.trans hp

/-- The bytes that an underflow moves in front of the first four cells of the buffer, where it leaves
the pointers as they were, are the bytes that were there. -/
def Settled (s : Ifhbuf ω α) : Prop :=
  s.buffer.load (s.gptr - (putbackSize - s.eback)) (putbackSize - s.eback) =
    s.buffer.load s.eback (putbackSize - s.eback)

private theorem moved_putbackArea (h : s.Wf) :
    s.putbackArea = s.buffer.load s.eback (putbackSize - s.eback) ++
      s.buffer.load putbackSize (s.gptr - putbackSize) ∧
    s.moved.putbackArea = s.buffer.load (s.gptr - (putbackSize - s.eback)) (putbackSize - s.eback) ++
      s.buffer.load putbackSize (s.gptr - putbackSize) := by
  have heback := h.eback
  have hgptr := h.gptr
  have hnp : putbackSize - s.eback ≤ s.nputback := by
    unfold nputback
    omega
  have hnp' : s.nputback ≤ putbackSize := Nat.min_le_right _ _
  have hnp'' : s.nputback ≤ s.gptr - s.eback := Nat.min_le_left _ _
  have hsplit : s.gptr - s.eback = (putbackSize - s.eback) + (s.gptr - putbackSize) := by omega
  have hstart : s.eback + (putbackSize - s.eback) = putbackSize := by omega
  constructor
  · rw [putbackArea, hsplit, Memory.load_add, hstart]
  · have hbehind : s.moved.buffer.load putbackSize (s.gptr - putbackSize) =
        s.buffer.load putbackSize (s.gptr - putbackSize) := by
      apply Memory.load_store_other
      rw [Memory.length_load]
      exact Or.inr (by omega)
    have hfront : s.moved.buffer.load s.eback (putbackSize - s.eback) =
        s.buffer.load (s.gptr - (putbackSize - s.eback)) (putbackSize - s.eback) := by
      have hall := moved_load s
      rw [show s.nputback = (s.nputback - (putbackSize - s.eback)) + (putbackSize - s.eback) by omega,
        Memory.load_add, Memory.load_add] at hall
      have hlast := List.append_inj_right hall (by rw [Memory.length_load, Memory.length_load])
      rwa [show putbackSize - (s.nputback - (putbackSize - s.eback) + (putbackSize - s.eback)) +
          (s.nputback - (putbackSize - s.eback)) = s.eback by omega,
        show s.gptr - (s.nputback - (putbackSize - s.eback) + (putbackSize - s.eback)) +
          (s.nputback - (putbackSize - s.eback)) = s.gptr - (putbackSize - s.eback) by omega] at hlast
    change s.moved.buffer.load s.eback (s.gptr - s.eback) = _
    rw [hsplit, Memory.load_add, hstart, hbehind, hfront]

/-- Where the pointers stay as they were, the putback area is right just when the move has changed
nothing in it. -/
private theorem moved_putback (h : s.Wf) (source : Source ω α) (hp : s.Putback) :
    Putback { s.moved with source := source } ↔ s.Settled := by
  obtain ⟨harea, hmoved⟩ := moved_putbackArea h
  have hlength : s.moved.putbackArea.length = s.putbackArea.length := by
    rw [putbackArea, putbackArea, Memory.length_load, Memory.length_load]
    rfl
  have heq : s.Settled ↔ s.moved.putbackArea = s.putbackArea := by
    rw [hmoved, harea, List.append_left_inj]
    exact Iff.rfl
  rw [heq]
  constructor
  · intro hp'
    exact (List.suffix_of_suffix_length_le hp' hp (Nat.le_of_eq hlength)).eq_of_length hlength
  · intro hsame
    change s.moved.putbackArea <:+ s.delivered
    rw [hsame]
    exact hp

/-! ### An underflow -/

theorem loadFrom_ok {p n : Nat} (h : s.buffer.Inside p n) :
    (loadFrom p n : Call ω ε α (List α)) s = (.ok (s.buffer.load p n), s) := by
  change (if s.buffer.Inside p n then pure (s.buffer.load p n) else throw .outOfBounds :
    Call ω ε α (List α)) s = _
  rw [if_pos h]
  rfl

theorem storeAt_ok {p : Nat} (h : s.buffer.Inside p bytes.length) :
    (storeAt p bytes : Call ω ε α Unit) s = (.ok (), { s with buffer := s.buffer.store p bytes }) := by
  change (if s.buffer.Inside p bytes.length then set { s with buffer := s.buffer.store p bytes }
    else throw .outOfBounds : Call ω ε α Unit) s = _
  rw [if_pos h]
  rfl

theorem readInto_ok {f : ReadFun ω ε α} {p n : Nat} (hin : s.buffer.Inside p n)
    (hr : f.call n s.source = (.ok bytes, source)) :
    readInto f p n s = (.ok bytes.length, { s with source := source, buffer := s.buffer.store p bytes }) := by
  unfold readInto
  change (if s.buffer.Inside p n then _ else _ : Call ω ε α Nat) s = _
  rw [if_pos hin]
  simp only [hr]
  rfl

private theorem readInto_error {f : ReadFun ω ε α} {p n : Nat} {e : ε} (hin : s.buffer.Inside p n)
    (hr : f.call n s.source = (.error e, source)) :
    readInto f p n s = (.error (.thrown e), { s with source := source }) := by
  unfold readInto
  change (if s.buffer.Inside p n then _ else _ : Call ω ε α Nat) s = _
  rw [if_pos hin]
  simp only [hr]
  rfl

/-- `read_fun` gives nothing, or throws. -/
def MeetsEnd (f : ReadFun ω ε α) (s : Ifhbuf ω α) : Prop :=
  ∀ bytes source, f.call s.bufferSize s.source = (.ok bytes, source) → bytes = []

/-- How a true underflow ends: with the buffer filled, or with the putback area moved and the pointers
as they were. -/
inductive Refilled (f : ReadFun ω ε α) (s : Ifhbuf ω α) : Except (BufferError ε) Bool × Ifhbuf ω α → Prop where
  | filled (bytes rest : List α) (w : ω) (hend : ¬ MeetsEnd f s) (hbytes : bytes ≠ [])
      (hlen : bytes.length ≤ s.bufferSize) (hrest : s.source.rest = bytes ++ rest) :
      Refilled f s (.ok true, s.filled bytes ⟨w, rest⟩)
  | ended (w : ω) (hend : MeetsEnd f s) (hrest : s.source.rest = []) :
      Refilled f s (.ok false, { s.moved with source := ⟨w, []⟩ })
  | threw (e : ε) (w : ω) (hend : MeetsEnd f s) (h : ¬ f.Total) :
      Refilled f s (.error (.thrown e), { s.moved with source := ⟨w, s.source.rest⟩ })

private theorem refill_refilled (f : ReadFun ω ε α) (h : s.Wf) (hempty : s.egptr ≤ s.gptr) :
    Refilled f s (refill f s) := by
  have hroom := h.room
  have horder := h.order
  have hsize := h.egptr
  have hnp : s.nputback ≤ s.gptr - s.eback := Nat.min_le_left _ _
  have hnp' : s.nputback ≤ putbackSize := Nat.min_le_right _ _
  have hload : s.buffer.Inside (s.gptr - s.nputback) s.nputback := by
    change s.gptr - s.nputback + s.nputback ≤ s.buffer.size
    omega
  have hstore : s.buffer.Inside (putbackSize - s.nputback)
      (s.buffer.load (s.gptr - s.nputback) s.nputback).length := by
    rw [Memory.length_load]
    change putbackSize - s.nputback + s.nputback ≤ s.buffer.size
    omega
  have hmove : (memmove (putbackSize - s.nputback) (s.gptr - s.nputback) s.nputback : Call ω ε α Unit) s =
      (.ok (), s.moved) := by
    unfold memmove
    rw [Prog.bind_of_ok (loadFrom_ok hload), storeAt_ok hstore]
    rfl
  have hin : s.moved.buffer.Inside putbackSize s.bufferSize := hroom
  have hrun : refill f s = (do
      let nread ← readInto f putbackSize s.bufferSize
      if nread = 0 then return false
      modify (resetBuffer s.nputback nread)
      return true : Call ω ε α Bool) s.moved := by
    unfold refill
    change (memmove (putbackSize - s.nputback) (s.gptr - s.nputback) s.nputback >>= _) s = _
    rw [Prog.bind_of_ok hmove]
    rfl
  have hgiven := f.call_given s.source h.pos
  generalize hr : f.call s.bufferSize s.source = r at hgiven
  rw [hrun]
  cases hgiven with
  | some bytes rest w hbytes hlen hrest =>
    have hpos := List.length_pos_iff.mpr hbytes
    have hend : ¬ MeetsEnd f s := fun hend => hbytes (hend bytes _ hr)
    rw [Prog.bind_of_ok (readInto_ok (s := s.moved) hin hr), if_neg (by omega)]
    exact .filled bytes rest w hend hbytes hlen hrest
  | nothing w hrest =>
    have hend : MeetsEnd f s := by
      intro bytes source hcall
      rw [hr] at hcall
      cases hcall
      rfl
    rw [Prog.bind_of_ok (readInto_ok (s := s.moved) hin hr), Memory.store_nil]
    exact .ended w hend hrest
  | threw e w hthrows =>
    have hend : MeetsEnd f s := by
      intro bytes source hcall
      rw [hr] at hcall
      cases hcall
    rw [Prog.bind_of_error (readInto_error (s := s.moved) hin hr)]
    exact .threw e w hend hthrows

/-- An underflow would get nothing more. -/
def AtEnd (f : ReadFun ω ε α) (s : Ifhbuf ω α) : Prop := s.egptr ≤ s.gptr ∧ MeetsEnd f s

/-- From `s` on the next character is known to be `c`. -/
structure Ready (s s' : Ifhbuf ω α) (c : α) : Prop where
  wf : s'.Wf
  left : s'.gptr < s'.egptr
  next : s'.buffer.cells s'.gptr = c
  delivered : s'.delivered = s.delivered
  ahead : s'.ahead = s.ahead
  putback : s.Putback → s'.Putback

/-- From `s` on there is no next character. -/
structure Ended (s s' : Ifhbuf ω α) : Prop where
  wf : s'.Wf
  empty : s'.available = []
  delivered : s'.delivered = s.delivered
  ahead : s'.ahead = s.ahead
  putback : s.Putback → (s'.Putback ↔ s.Settled)

/-- How looking for the next character ends. -/
inductive Peeked (f : ReadFun ω ε α) (s : Ifhbuf ω α) : Except (BufferError ε) (Option α) × Ifhbuf ω α → Prop where
  | char (c : α) (s' : Ifhbuf ω α) (h : Ready s s' c) (hend : ¬ AtEnd f s) : Peeked f s (.ok (some c), s')
  | eof (s' : Ifhbuf ω α) (h : Ended s s') (hend : AtEnd f s) (hrest : s'.ahead = []) : Peeked f s (.ok none, s')
  | threw (e : ε) (s' : Ifhbuf ω α) (h : Ended s s') (hend : AtEnd f s) (hthrows : ¬ f.Total) :
      Peeked f s (.error (.thrown e), s')

theorem load_next (h : s.Wf) (hleft : s.gptr < s.egptr) :
    (loadFrom s.gptr 1 : Call ω ε α (List α)) s = (.ok [s.buffer.cells s.gptr], s) := by
  have hin : s.buffer.Inside s.gptr 1 := by
    have := h.egptr
    change s.gptr + 1 ≤ s.buffer.size
    omega
  exact loadFrom_ok hin

theorem nextCharacter_run (h : s.Wf) (hleft : s.gptr < s.egptr) :
    (nextCharacter : Call ω ε α (Option α)) s = (.ok (some (s.buffer.cells s.gptr)), s) := by
  change (loadFrom s.gptr 1 >>= fun bytes => pure bytes.head?) s = _
  rw [Prog.bind_of_ok (load_next h hleft)]
  rfl

theorem moved_ended (h : s.Wf) (hempty : s.egptr ≤ s.gptr) (w : ω) :
    Ended s { s.moved with source := ⟨w, s.source.rest⟩ } := by
  have havailable := available_of_empty hempty
  have hmoved : available { s.moved with source := ⟨w, s.source.rest⟩ } = [] := available_of_empty hempty
  refine ⟨moved_wf h _, hmoved, rfl, ?_, fun hp => moved_putback h _ hp⟩
  rw [ahead, ahead, hmoved, havailable]

private theorem filled_ready {rest : List α} (h : s.Wf) (hempty : s.egptr ≤ s.gptr)
    (hlen : (c :: bytes).length ≤ s.bufferSize) (hrest : s.source.rest = c :: bytes ++ rest) (w : ω) :
    Ready s (s.filled (c :: bytes) ⟨w, rest⟩) c := by
  have hwf : (s.filled (c :: bytes) ⟨w, rest⟩).Wf := filled_wf h hlen
  have hleft : (s.filled (c :: bytes) ⟨w, rest⟩).gptr < (s.filled (c :: bytes) ⟨w, rest⟩).egptr := by
    change putbackSize < putbackSize + (bytes.length + 1)
    omega
  refine ⟨hwf, hleft, ?_, rfl, ?_, fun hp => filled_putback h hp⟩
  · have hcons := available_cons hleft
    rw [filled_available] at hcons
    exact (List.cons.inj hcons).1.symm
  · rw [ahead, ahead, filled_available, available_of_empty hempty, hrest]
    rfl

theorem underflow_peeked (f : ReadFun ω ε α) (h : s.Wf) : Peeked f s (underflow f s) := by
  have hrun : underflow f s = (if s.egptr ≤ s.gptr then do
      if ← refill f then nextCharacter else return none
    else nextCharacter : Call ω ε α (Option α)) s := rfl
  rw [hrun]
  by_cases hempty : s.egptr ≤ s.gptr
  · rw [if_pos hempty]
    have hrefilled := refill_refilled f h hempty
    generalize hr : refill f s = r at hrefilled
    cases hrefilled with
    | filled bytes rest w hend hbytes hlen hrest =>
      obtain ⟨c, bytes, rfl⟩ := List.exists_cons_of_ne_nil hbytes
      have hready := filled_ready h hempty hlen hrest w
      rw [Prog.bind_of_ok hr, if_pos rfl, nextCharacter_run hready.wf hready.left, hready.next]
      exact .char c _ hready fun hat => hend hat.2
    | ended w hend hrest =>
      have hended := moved_ended h hempty w
      rw [hrest] at hended
      rw [Prog.bind_of_ok hr, if_neg Bool.false_ne_true]
      refine .eof _ hended ⟨hempty, hend⟩ ?_
      rw [hended.ahead, ahead, available_of_empty hempty, hrest]
      rfl
    | threw e w hend hthrows =>
      rw [Prog.bind_of_error hr]
      exact .threw e _ (moved_ended h hempty w) ⟨hempty, hend⟩ hthrows
  · have hleft : s.gptr < s.egptr := Nat.lt_of_not_le hempty
    rw [if_neg hempty, nextCharacter_run h hleft]
    exact .char _ s ⟨h, hleft, rfl, rfl, rfl, id⟩ fun hat => hempty hat.1

theorem sgetc_peeked (f : ReadFun ω ε α) (h : s.Wf) : Peeked f s (sgetc f s) := by
  have hrun : sgetc f s = (if s.gptr < s.egptr then nextCharacter else underflow f) s := rfl
  rw [hrun]
  by_cases hleft : s.gptr < s.egptr
  · rw [if_pos hleft, nextCharacter_run h hleft]
    exact .char _ s ⟨h, hleft, rfl, rfl, rfl, id⟩ fun hat => Nat.not_le.mpr hleft hat.1
  · rw [if_neg hleft]
    exact underflow_peeked f h

/-! ### Delivering -/

def bumped (s : Ifhbuf ω α) (c : α) : Ifhbuf ω α := { s with gptr := s.gptr + 1, delivered := s.delivered ++ [c] }

theorem takeCharacter_run (h : s.Wf) (hleft : s.gptr < s.egptr) :
    (takeCharacter : Call ω ε α (Option α)) s =
      (.ok (some (s.buffer.cells s.gptr)), s.bumped (s.buffer.cells s.gptr)) := by
  change (loadFrom s.gptr 1 >>= _) s = _
  rw [Prog.bind_of_ok (load_next h hleft)]
  rfl

/-- From `s` on the bytes are delivered. -/
structure Delivers (s s' : Ifhbuf ω α) (bytes : List α) : Prop where
  wf : s'.Wf
  delivered : s'.delivered = s.delivered ++ bytes
  ahead : s.ahead = bytes ++ s'.ahead

theorem Delivers.trans {s₁ s₂ : Ifhbuf ω α} {more : List α} (h : Delivers s s₁ bytes) (h' : Delivers s₁ s₂ more) :
    Delivers s s₂ (bytes ++ more) :=
  ⟨h'.wf, by rw [h'.delivered, h.delivered, List.append_assoc], by rw [h.ahead, h'.ahead, List.append_assoc]⟩

theorem Ended.delivers {s' : Ifhbuf ω α} (h : Ended s s') : Delivers s s' [] :=
  ⟨h.wf, by rw [h.delivered, List.append_nil], by rw [h.ahead, List.nil_append]⟩

theorem Ready.delivers {s' : Ifhbuf ω α} (h : Ready s s' c) : Delivers s (s'.bumped c) [c] := by
  have hleft := h.left
  have hgptr := h.wf.gptr
  refine ⟨⟨h.wf.eback, Nat.le_succ_of_le hgptr, hleft, h.wf.egptr, h.wf.pos, h.wf.room⟩, ?_, ?_⟩
  · exact congrArg (fun bytes => bytes ++ [c]) h.delivered
  · rw [← h.ahead, Ifhbuf.ahead, available_cons hleft, h.next]
    rfl

theorem Ready.bumped_putback {s' : Ifhbuf ω α} (h : Ready s s' c) (hp : s.Putback) : (s'.bumped c).Putback := by
  have heback := h.wf.eback
  have hgptr := h.wf.gptr
  have harea : (s'.bumped c).putbackArea = s'.putbackArea ++ [c] := by
    change s'.buffer.load s'.eback (s'.gptr + 1 - s'.eback) = _
    rw [show s'.gptr + 1 - s'.eback = (s'.gptr - s'.eback) + 1 by omega, Memory.load_add,
      show s'.eback + (s'.gptr - s'.eback) = s'.gptr by omega, Memory.load_one, h.next]
    rfl
  obtain ⟨before, hbefore⟩ := h.putback hp
  refine ⟨before, ?_⟩
  rw [harea, ← List.append_assoc, hbefore]
  rfl

/-- How taking the next character ends. -/
inductive Bumped (f : ReadFun ω ε α) (s : Ifhbuf ω α) : Except (BufferError ε) (Option α) × Ifhbuf ω α → Prop where
  | char (c : α) (s' : Ifhbuf ω α) (h : Delivers s s' [c]) (hputback : s.Putback → s'.Putback) (hend : ¬ AtEnd f s) :
      Bumped f s (.ok (some c), s')
  | eof (s' : Ifhbuf ω α) (h : Ended s s') (hend : AtEnd f s) (hrest : s'.ahead = []) : Bumped f s (.ok none, s')
  | threw (e : ε) (s' : Ifhbuf ω α) (h : Ended s s') (hend : AtEnd f s) (hthrows : ¬ f.Total) :
      Bumped f s (.error (.thrown e), s')

theorem sbumpc_bumped (f : ReadFun ω ε α) (h : s.Wf) : Bumped f s (sbumpc f s) := by
  unfold sbumpc
  change Bumped f s ((if s.gptr < s.egptr then _ else _ : Call ω ε α (Option α)) s)
  by_cases hleft : s.gptr < s.egptr
  · have hready : Ready s s (s.buffer.cells s.gptr) := ⟨h, hleft, rfl, rfl, rfl, id⟩
    rw [if_pos hleft, takeCharacter_run h hleft]
    exact .char _ _ hready.delivers hready.bumped_putback fun hat => Nat.not_le.mpr hleft hat.1
  · rw [if_neg hleft]
    have hpeeked := underflow_peeked f h
    generalize hr : underflow f s = r at hpeeked
    cases hpeeked with
    | char c s' hready hend =>
      rw [Prog.bind_of_ok hr]
      dsimp only
      rw [takeCharacter_run hready.wf hready.left, hready.next]
      exact .char c _ hready.delivers hready.bumped_putback hend
    | eof s' hended hend hrest =>
      rw [Prog.bind_of_ok hr]
      exact .eof s' hended hend hrest
    | threw e s' hended hend hthrows =>
      rw [Prog.bind_of_error hr]
      exact .threw e s' hended hend hthrows

/-! ### Block reads -/

/-- The next character is there, or there is nothing in the putback area that moving could spoil. -/
def RefillSafe (f : ReadFun ω ε α) (s : Ifhbuf ω α) : Prop := AtEnd f s → Settled s

/-- The same for each character of a block. -/
def ReadSafe (f : ReadFun ω ε α) : Nat → Ifhbuf ω α → Prop
  | 0, _ => True
  | n + 1, s => RefillSafe f s ∧ ∀ c s', sbumpc f s = (.ok (some c), s') → ReadSafe f n s'

theorem Ended.putback_safe {s' : Ifhbuf ω α} (h : Ended s s') (hat : AtEnd f s) (hp : s.Putback) :
    s'.Putback ↔ RefillSafe f s :=
  (h.putback hp).trans ⟨fun hsettled _ => hsettled, fun hsafe => hsafe hat⟩

/-- How a read of `n` bytes ends. The putback area of the end is right just when `safe` holds. -/
inductive Got (f : ReadFun ω ε α) (n : Nat) (safe : Prop) (s : Ifhbuf ω α) :
    Except (BufferError ε) (List α) × Ifhbuf ω α → Prop where
  | done (bytes : List α) (s' : Ifhbuf ω α) (h : Delivers s s' bytes) (hlen : bytes.length ≤ n)
      (hshort : bytes.length < n → s'.ahead = []) (hputback : s.Putback → (s'.Putback ↔ safe)) :
      Got f n safe s (.ok bytes, s')
  | threw (e : ε) (s' : Ifhbuf ω α) (hwf : s'.Wf) (hthrows : ¬ f.Total) (hputback : s.Putback → (s'.Putback ↔ safe)) :
      Got f n safe s (.error (.thrown e), s')

theorem Delivers.refl (h : s.Wf) : Delivers s s [] := ⟨h, (List.append_nil _).symm, rfl⟩

private theorem streambufXsgetn_got (f : ReadFun ω ε α) (n : Nat) (h : s.Wf) :
    Got f n (ReadSafe f n s) s (streambufXsgetn f n s) := by
  induction n generalizing s with
  | zero =>
    have hfull : ([] : List α).length < 0 → s.ahead = [] := fun hlt => absurd hlt (Nat.lt_irrefl 0)
    exact .done [] s (.refl h) (Nat.le_refl 0) hfull fun hp => iff_of_true hp trivial
  | succ n ih =>
    have hbumped := sbumpc_bumped f h
    unfold streambufXsgetn
    generalize hr : sbumpc f s = r at hbumped
    have hend (hat : AtEnd f s) (hnone : ∀ c s', r ≠ (.ok (some c), s')) : s.Settled ↔ ReadSafe f (n + 1) s := by
      constructor
      · intro hsettled
        exact ⟨fun _ => hsettled, fun c s' hrun => absurd (hr.symm.trans hrun) (hnone c s')⟩
      · intro hsafe
        exact hsafe.1 hat
    cases hbumped with
    | char c s' hdelivers hputback hgoes =>
      rw [Prog.bind_of_ok hr]
      have hgot := ih hdelivers.wf
      have hsafe : ReadSafe f n s' ↔ ReadSafe f (n + 1) s := by
        constructor
        · intro hsafe
          refine ⟨fun hat => absurd hat hgoes, fun c' s'' hrun => ?_⟩
          cases hr.symm.trans hrun
          exact hsafe
        · intro hsafe
          exact hsafe.2 c s' hr
      dsimp only
      generalize hm : streambufXsgetn f n s' = r at hgot
      cases hgot with
      | done bytes s'' hmore hlen hshort hp =>
        rw [Prog.bind_of_ok hm]
        refine .done (c :: bytes) s'' (hdelivers.trans hmore) (Nat.succ_le_succ hlen) ?_ fun hs => ?_
        · exact fun hlt => hshort (Nat.lt_of_succ_lt_succ hlt)
        · exact (hp (hputback hs)).trans hsafe
      | threw e s'' hwf hthrows hp =>
        rw [Prog.bind_of_error hm]
        exact .threw e s'' hwf hthrows fun hs => (hp (hputback hs)).trans hsafe
    | eof s' hended hat hrest =>
      rw [Prog.bind_of_ok hr]
      exact .done [] s' hended.delivers (Nat.zero_le _) (fun _ => hrest) fun hp =>
        (hended.putback hp).trans (hend hat nofun)
    | threw e s' hended hat hthrows =>
      rw [Prog.bind_of_error hr]
      exact .threw e s' hended.wf hthrows fun hp => (hended.putback hp).trans (hend hat nofun)

/-- The condition on a block read: a direct read builds the putback area anew. -/
def BlockSafe (f : ReadFun ω ε α) (n : Nat) (s : Ifhbuf ω α) : Prop :=
  n < s.egptr - s.gptr + 4096 → ReadSafe f n s

/-- The state after a direct read. -/
def directed (s : Ifhbuf ω α) (bytes : List α) (source : Source ω α) : Ifhbuf ω α :=
  let nputback := min bytes.length putbackSize
  { s with
    source := source
    buffer := s.buffer.store (putbackSize - nputback) (bytes.drop (bytes.length - nputback))
    eback := putbackSize - nputback
    gptr := putbackSize
    egptr := putbackSize + 0
    delivered := s.delivered ++ bytes }

private theorem directed_delivers (h : s.Wf) (hrest : s.ahead = bytes ++ source.rest) :
    Delivers s (s.directed bytes source) bytes := by
  have hroom := h.room
  refine ⟨⟨Nat.sub_le _ _, Nat.le_refl _, Nat.le_refl _, ?_, h.pos, hroom⟩, rfl, hrest⟩
  change putbackSize + 0 ≤ s.buffer.size
  omega

private theorem directed_putback (s : Ifhbuf ω α) (bytes : List α) (source : Source ω α) :
    (s.directed bytes source).Putback := by
  have hle : min bytes.length putbackSize ≤ putbackSize := Nat.min_le_right _ _
  have hlength : (bytes.drop (bytes.length - min bytes.length putbackSize)).length = min bytes.length putbackSize := by
    rw [List.length_drop]
    omega
  have harea : (s.directed bytes source).putbackArea = bytes.drop (bytes.length - min bytes.length putbackSize) := by
    change (s.buffer.store (putbackSize - min bytes.length putbackSize)
      (bytes.drop (bytes.length - min bytes.length putbackSize))).load (putbackSize - min bytes.length putbackSize)
      (putbackSize - (putbackSize - min bytes.length putbackSize)) = _
    have hsame : (s.buffer.store (putbackSize - min bytes.length putbackSize)
        (bytes.drop (bytes.length - min bytes.length putbackSize))).load (putbackSize - min bytes.length putbackSize)
        (bytes.drop (bytes.length - min bytes.length putbackSize)).length = _ := Memory.load_store_same
    rw [hlength] at hsame
    rw [Nat.sub_sub_self hle, hsame]
  unfold Putback
  rw [harea]
  exact (List.drop_suffix _ bytes).trans (List.suffix_append _ _)

private theorem readLoop_ok {f : ReadFun ω ε α} {n : Nat} (hr : f.readLoop n s.source = (.ok bytes, source)) :
    readLoop f n s = (.ok bytes, { s with source := source }) := by
  rw [readLoop, hr]
  rfl

private theorem readLoop_error {f : ReadFun ω ε α} {n : Nat} {e : ε} (hr : f.readLoop n s.source = (.error e, source)) :
    readLoop f n s = (.error (.thrown e), { s with source := source }) := by
  rw [readLoop, hr]
  rfl

theorem xsgetn_got (f : ReadFun ω ε α) (n : Nat) (h : s.Wf) : Got f n (BlockSafe f n s) s (xsgetn f n s) := by
  unfold xsgetn
  change Got f n _ s ((if n < s.egptr - s.gptr + 4096 then _ else _ : Call ω ε α (List α)) s)
  by_cases hdirect : n < s.egptr - s.gptr + 4096
  · have hsafe : BlockSafe f n s = ReadSafe f n s := propext ⟨fun h => h hdirect, fun h _ => h⟩
    rw [if_pos hdirect, hsafe]
    exact streambufXsgetn_got f n h
  · have hsafe : BlockSafe f n s := fun hlt => absurd hlt hdirect
    have horder := h.order
    have hsize := h.egptr
    have hroom := h.room
    have hin : s.buffer.Inside s.gptr (s.egptr - s.gptr) := by
      change s.gptr + (s.egptr - s.gptr) ≤ s.buffer.size
      omega
    have hload : (loadFrom s.gptr (s.egptr - s.gptr) : Call ω ε α (List α)) s = (.ok s.available, s) :=
      loadFrom_ok hin
    have hlength : s.available.length = s.egptr - s.gptr := Memory.length_load
    have hlooped := f.readLoop_looped (n - (s.egptr - s.gptr)) s.source
    rw [if_neg hdirect, Prog.bind_of_ok hload]
    generalize hr : f.readLoop (n - (s.egptr - s.gptr)) s.source = r at hlooped
    cases hlooped with
    | threw e source hthrows =>
      rw [Prog.bind_of_error (readLoop_error hr)]
      exact .threw e _ ⟨h.eback, h.gptr, h.order, h.egptr, h.pos, h.room⟩ hthrows fun hp => iff_of_true hp hsafe
    | done direct source hrest hlen hshort =>
      have hahead : s.ahead = s.available ++ direct ++ source.rest := by
        rw [ahead, hrest, List.append_assoc]
      have hstore : s.buffer.Inside (putbackSize - min (s.available ++ direct).length putbackSize)
          ((s.available ++ direct).drop ((s.available ++ direct).length -
            min (s.available ++ direct).length putbackSize)).length := by
        rw [List.length_drop]
        change putbackSize - min (s.available ++ direct).length putbackSize + _ ≤ s.buffer.size
        omega
      rw [Prog.bind_of_ok (readLoop_ok hr)]
      change Got f n _ s ((storeAt _ _ >>= _) { s with source := source })
      rw [Prog.bind_of_ok (storeAt_ok (s := { s with source := source }) hstore)]
      refine .done (s.available ++ direct) (s.directed (s.available ++ direct) source)
        (directed_delivers h hahead) ?_ ?_ fun hp => iff_of_true (directed_putback s _ source) hsafe
      · rw [List.length_append, hlength]
        omega
      · intro hlt
        rw [List.length_append, hlength] at hlt
        change [] ++ source.rest = []
        exact hshort (by omega)

/-! ### The calls of a reader -/

/-- The condition on a call, under which the putback area stays right. -/
def OpSafe (f : ReadFun ω ε α) (s : Ifhbuf ω α) : Op → Prop
  | .peek => RefillSafe f s
  | .get => RefillSafe f s
  | .read n => BlockSafe f n s
  | .unbuffered => True

/-- How a call ends. -/
inductive Performed (f : ReadFun ω ε α) (op : Op) (s : Ifhbuf ω α) :
    Except (BufferError ε) (List α) × Ifhbuf ω α → Prop where
  | done (bytes : List α) (s' : Ifhbuf ω α) (h : Delivers s s' bytes)
      (hputback : s.Putback → (s'.Putback ↔ OpSafe f s op)) : Performed f op s (.ok bytes, s')
  | threw (e : ε) (s' : Ifhbuf ω α) (hwf : s'.Wf) (hthrows : ¬ f.Total)
      (hputback : s.Putback → (s'.Putback ↔ OpSafe f s op)) : Performed f op s (.error (.thrown e), s')

private theorem peek_performed (f : ReadFun ω ε α) (h : s.Wf) : Performed f .peek s (perform f .peek s) := by
  have hpeeked := sgetc_peeked f h
  change Performed f .peek s ((sgetc f >>= fun _ => pure []) s)
  generalize hr : sgetc f s = r at hpeeked
  cases hpeeked with
  | char c s' hready hgoes =>
    rw [Prog.bind_of_ok hr]
    refine .done [] s' ⟨hready.wf, ?_, hready.ahead.symm⟩ fun hp => ?_
    · rw [hready.delivered, List.append_nil]
    · exact iff_of_true (hready.putback hp) fun hat => absurd hat hgoes
  | eof s' hended hat hrest =>
    rw [Prog.bind_of_ok hr]
    exact .done [] s' hended.delivers fun hp => hended.putback_safe hat hp
  | threw e s' hended hat hthrows =>
    rw [Prog.bind_of_error hr]
    exact .threw e s' hended.wf hthrows fun hp => hended.putback_safe hat hp

private theorem get_performed (f : ReadFun ω ε α) (h : s.Wf) : Performed f .get s (perform f .get s) := by
  have hbumped := sbumpc_bumped f h
  change Performed f .get s ((sbumpc f >>= fun c => pure c.toList) s)
  generalize hr : sbumpc f s = r at hbumped
  cases hbumped with
  | char c s' hdelivers hputback hgoes =>
    rw [Prog.bind_of_ok hr]
    exact .done [c] s' hdelivers fun hp => iff_of_true (hputback hp) fun hat => absurd hat hgoes
  | eof s' hended hat hrest =>
    rw [Prog.bind_of_ok hr]
    exact .done [] s' hended.delivers fun hp => hended.putback_safe hat hp
  | threw e s' hended hat hthrows =>
    rw [Prog.bind_of_error hr]
    exact .threw e s' hended.wf hthrows fun hp => hended.putback_safe hat hp

theorem perform_performed (f : ReadFun ω ε α) (op : Op) (h : s.Wf) : Performed f op s (perform f op s) := by
  cases op with
  | peek => exact peek_performed f h
  | get => exact get_performed f h
  | read n =>
    have hgot := xsgetn_got f n h
    change Performed f (.read n) s (xsgetn f n s)
    generalize xsgetn f n s = r at hgot
    cases hgot with
    | done bytes s' hdelivers hlen hshort hp => exact .done bytes s' hdelivers hp
    | threw e s' hwf hthrows hp => exact .threw e s' hwf hthrows hp
  | unbuffered =>
    have hroom := h.room
    have hpos := h.pos
    have hwf : Wf { s with bufferSize := 1 } :=
      ⟨h.eback, h.gptr, h.order, h.egptr, Nat.le_refl 1, show putbackSize + 1 ≤ s.buffer.size by omega⟩
    exact .done [] { s with bufferSize := 1 } ⟨hwf, (List.append_nil _).symm, rfl⟩ fun hp => iff_of_true hp trivial

end Ifhbuf
end GitCrypt
