import Mathlib.Tactic.Linarith
import GitCrypt.Library.IStream
import GitCrypt.Library.Inevitable

/-! A program that reads from one process and questions another, over pipes that hold a bounded
number of bytes. A process may be stopped after any byte, and a read takes any part of what is in
the pipe. -/
namespace Iostream

/-! ### Extractions from a stream that is still being filled -/

/-- The stream when more has arrived. -/
def IStream.extend (s : IStream) (more : List UInt8) : IStream := { s with rest := s.rest ++ more }

@[simp] theorem IStream.extend_rest (s : IStream) (more : List UInt8) : (s.extend more).rest = s.rest ++ more := rfl

@[simp] theorem IStream.extend_nil (s : IStream) : s.extend [] = s := by
  rw [extend, List.append_nil]

theorem IStream.extend_extend (s : IStream) (a b : List UInt8) : (s.extend a).extend b = s.extend (a ++ b) := by
  rw [extend, extend, extend, List.append_assoc]

theorem IStream.extend_ofBytes (a b : List UInt8) : (ofBytes a).extend b = ofBytes (a ++ b) := rfl

/-- Where the extraction does not meet the end of the stream, it has read no further than it
had to. -/
structure Incremental {α : Type} (op : IStream → α × IStream) : Prop where
  sticky : ∀ s, (op s).2.eofbit = false → s.eofbit = false
  stable : ∀ s more, (op s).2.eofbit = false → op (s.extend more) = ((op s).1, (op s).2.extend more)

namespace Incremental
variable {α β : Type}

theorem pure (a : α) : Incremental fun s => (a, s) := ⟨fun _ => id, fun _ _ _ => rfl⟩

theorem bind {op : IStream → α × IStream} {next : α → IStream → β × IStream} (h : Incremental op)
    (hnext : ∀ a, Incremental (next a)) : Incremental fun s => next (op s).1 (op s).2 := by
  constructor
  · intro s heof
    exact h.sticky s ((hnext _).sticky _ heof)
  · intro s more heof
    have hop := h.stable s more ((hnext _).sticky _ heof)
    rw [hop]
    exact (hnext _).stable _ more heof

/-- An extraction that only looks at a good stream. -/
private theorem of_good {op : IStream → α × IStream} (a : α) (count : Nat → Nat)
    (hbad : ∀ s, ¬ s.good = true → op s = (a, { s with failbit := true, gcount := count s.gcount }))
    (hgood : ∀ s more, s.good = true → (op s).2.eofbit = false →
      op (s.extend more) = ((op s).1, (op s).2.extend more)) : Incremental op := by
  constructor
  · intro s heof
    by_cases hg : s.good = true
    · exact (IStream.good_iff.mp hg).1
    · rw [hbad s hg] at heof
      exact heof
  · intro s more heof
    by_cases hg : s.good = true
    · exact hgood s more hg heof
    · rw [hbad s hg, hbad (s.extend more) hg]
      rfl

/-- What a scan that stops leaves is the same when more has arrived. -/
private theorem scan_append {p : UInt8 → Bool} {l : List UInt8} (h : l.dropWhile p ≠ []) (more : List UInt8) :
    (l ++ more).takeWhile p = l.takeWhile p ∧ (l ++ more).dropWhile p = l.dropWhile p ++ more := by
  have hlen := congrArg List.length (@List.takeWhile_append_dropWhile _ p l)
  rw [List.length_append] at hlen
  have hpos := List.length_pos_iff.mpr h
  constructor
  · rw [List.takeWhile_append, if_neg (by omega)]
  · rw [List.dropWhile_append, if_neg (by simpa using h)]

theorem getline (delim : UInt8) : Incremental fun s => s.getline delim := by
  refine of_good [] id (fun s hg => if_neg hg) fun s more hg heof => ?_
  have hg' : (s.extend more).good = true := hg
  rw [IStream.getline, if_pos hg] at heof
  rw [IStream.getline, IStream.getline, if_pos hg, if_pos hg', IStream.extend_rest]
  cases hd : s.rest.dropWhile (· ≠ delim) with
  | nil =>
    rw [hd] at heof
    cases heof
  | cons b tail =>
    obtain ⟨htake, hdrop⟩ := scan_append (by rw [hd]; exact List.cons_ne_nil b tail) more
    rw [hd, List.cons_append] at hdrop
    rw [htake, hdrop]
    rfl

/-- A scan that stops leaves something. -/
private theorem isEmpty_append {l : List UInt8} (h : l ≠ []) (more : List UInt8) : (l ++ more).isEmpty = l.isEmpty := by
  cases l with
  | nil => exact absurd rfl h
  | cons b l => rfl

theorem skipWs : Incremental fun s => ((), s.skipWs) := by
  refine of_good () id (fun s hg => congrArg _ (if_neg hg)) fun s more hg heof => ?_
  have hg' : (s.extend more).good = true := hg
  rw [IStream.skipWs, if_pos hg] at heof
  have hne : s.rest.dropWhile IStream.isSpace ≠ [] := by simpa using heof
  rw [IStream.skipWs, IStream.skipWs, if_pos hg, if_pos hg', IStream.extend_rest, (scan_append hne more).2]
  dsimp only
  rw [isEmpty_append hne]
  rfl

theorem extractWord : Incremental IStream.extractWord := by
  refine of_good [] id (fun s hg => if_neg hg) fun s more hg heof => ?_
  have hg' : (s.extend more).good = true := hg
  rw [IStream.extractWord, if_pos hg] at heof
  have hne : (s.rest.dropWhile IStream.isSpace).dropWhile (!IStream.isSpace ·) ≠ [] := by simpa using heof
  have hspace : s.rest.dropWhile IStream.isSpace ≠ [] := by
    intro h
    rw [h] at hne
    exact hne rfl
  obtain ⟨hword, htail⟩ := scan_append hne more
  rw [IStream.extractWord, IStream.extractWord, if_pos hg, if_pos hg', IStream.extend_rest, (scan_append hspace more).2]
  dsimp only
  rw [hword, htail, isEmpty_append hne]
  rfl

theorem peek : Incremental IStream.peek := by
  refine of_good none (fun _ => 0) (fun s hg => if_neg hg) fun s more hg heof => ?_
  have hg' : (s.extend more).good = true := hg
  rw [IStream.peek, if_pos hg] at heof
  rw [IStream.peek, IStream.peek, if_pos hg, if_pos hg', IStream.extend_rest]
  cases hr : s.rest with
  | nil =>
    rw [hr] at heof
    cases heof
  | cons b bs => simp [IStream.extend, hr]

end Incremental

/-- A stream from which nothing more can be read has nothing left. -/
def Spent (s : IStream) : Prop := s.good = false → s.rest = []

namespace Spent
variable {s : IStream}

theorem ofBytes (bytes : List UInt8) : Spent (.ofBytes bytes) := fun hbad => by cases hbad

theorem peek (h : Spent s) : Spent s.peek.2 := by
  intro hbad
  by_cases hg : s.good = true
  · cases hr : s.rest with
    | nil => simp [IStream.peek, hg, hr]
    | cons b bs =>
      rw [IStream.peek_of_cons hg (by simp [hr])] at hbad
      exact absurd (hg.symm.trans hbad) (by simp)
  · rw [IStream.peek, if_neg hg]
    exact h (by simpa using hg)

theorem getline (h : Spent s) (delim : UInt8) : Spent (s.getline delim).2 := by
  intro hbad
  by_cases hg : s.good = true
  · rw [IStream.getline, if_pos hg] at hbad ⊢
    cases hd : s.rest.dropWhile (· ≠ delim) with
    | nil => rfl
    | cons b tail =>
      rw [hd] at hbad
      exact absurd (hg.symm.trans hbad) (by simp)
  · rw [IStream.getline, if_neg hg]
    exact h (by simpa using hg)

theorem skipWs (h : Spent s) : Spent s.skipWs := by
  intro hbad
  by_cases hg : s.good = true
  · have hf := (IStream.good_iff.mp hg).2
    rw [IStream.skipWs, if_pos hg] at hbad ⊢
    simpa [IStream.good, hf] using hbad
  · rw [IStream.skipWs, if_neg hg]
    exact h (by simpa using hg)

theorem extractWord (h : Spent s) : Spent s.extractWord.2 := by
  intro hbad
  by_cases hg : s.good = true
  · rw [IStream.extractWord, if_pos hg] at hbad ⊢
    cases hr : s.rest.dropWhile IStream.isSpace with
    | nil => rfl
    | cons b bs =>
      have hb := List.head_dropWhile_not IStream.isSpace (by rw [hr]; exact List.cons_ne_nil b bs)
      simp only [hr, List.head_cons] at hb
      rw [hr] at hbad
      have hword := @List.takeWhile_cons_of_pos _ (!IStream.isSpace ·) b bs (by simp [hb])
      simpa [IStream.good, hword] using hbad
  · rw [IStream.extractWord, if_neg hg]
    exact h (by simpa using hg)

end Spent

/-! ### A pipe -/

/-- A pipe with both its ends: what the writer has still to write, what is in the pipe, whether the
writer has closed it, and the stream of the reader. -/
structure Pipe where
  pending : List UInt8 := []
  inFlight : List UInt8 := []
  closed : Bool := false
  arrived : IStream := .ofBytes []

namespace Pipe
variable {α : Type} {op : IStream → α × IStream} {p p' : Pipe} {capacity : Nat}

/-- The stream of the reader as it will be when all has arrived. -/
def stream (p : Pipe) : IStream := p.arrived.extend (p.inFlight ++ p.pending)

/-- `write` puts a part of what is to be written into the room that is left. -/
inductive Writes (capacity : Nat) (p : Pipe) : Pipe → Prop
  | write (n : Nat) (hn : 0 < n) (hp : n ≤ p.pending.length) (hroom : p.inFlight.length + n ≤ capacity) :
    Writes capacity p { p with pending := p.pending.drop n, inFlight := p.inFlight ++ p.pending.take n }

/-- The reader calls `read` while the extraction meets the end of what has arrived. -/
inductive Fills (op : IStream → α × IStream) (p : Pipe) : Pipe → Prop
  | read (hshort : (op p.arrived).2.eofbit = true) (n : Nat) (hn : 0 < n) (hp : n ≤ p.inFlight.length) :
    Fills op p { p with inFlight := p.inFlight.drop n, arrived := p.arrived.extend (p.inFlight.take n) }

/-- The extraction ends: it has not met the end of what has arrived, or there will be no more. -/
def Ready (op : IStream → α × IStream) (p : Pipe) : Prop :=
  (op p.arrived).2.eofbit = false ∨ p.closed = true ∧ p.inFlight = []

/-- The pipe after the extraction. -/
def extracted (op : IStream → α × IStream) (p : Pipe) : Pipe := { p with arrived := (op p.arrived).2 }

/-- Nothing is left to be written when the writer closes. -/
def Valid (p : Pipe) : Prop := p.closed = true → p.pending = []

/-- How much is left to be done with the pipe. -/
def work (p : Pipe) : Nat := 2 * p.pending.length + p.inFlight.length + if p.closed then 0 else 1

theorem Writes.stream_eq (h : Writes capacity p p') : p'.stream = p.stream := by
  obtain ⟨n, hn, hp, hroom⟩ := h
  rw [stream, stream, List.append_assoc, List.take_append_drop]

theorem Writes.work_lt (h : Writes capacity p p') : p'.work < p.work := by
  obtain ⟨n, hn, hp, hroom⟩ := h
  simp only [work, List.length_drop, List.length_append, List.length_take]
  omega

theorem Writes.closed_eq (h : Writes capacity p p') : p'.closed = p.closed := by
  obtain ⟨n, hn, hp, hroom⟩ := h
  rfl

theorem Writes.pending_ne (h : Writes capacity p p') : p.pending ≠ [] := by
  obtain ⟨n, hn, hp, hroom⟩ := h
  intro hnil
  rw [hnil, List.length_nil] at hp
  omega

theorem Fills.stream_eq (h : Fills op p p') : p'.stream = p.stream := by
  obtain ⟨hshort, n, hn, hp⟩ := h
  rw [stream, stream, IStream.extend_extend, ← List.append_assoc, List.take_append_drop]

theorem Fills.work_lt (h : Fills op p p') : p'.work < p.work := by
  obtain ⟨hshort, n, hn, hp⟩ := h
  simp only [work, List.length_drop]
  omega

theorem Fills.closed_eq (h : Fills op p p') : p'.closed = p.closed := by
  obtain ⟨hshort, n, hn, hp⟩ := h
  rfl

theorem Fills.pending_eq (h : Fills op p p') : p'.pending = p.pending := by
  obtain ⟨hshort, n, hn, hp⟩ := h
  rfl

theorem Writes.valid (h : Writes capacity p p') (hp : p.Valid) : p'.Valid := by
  intro hclosed
  rw [h.closed_eq] at hclosed
  exact absurd (hp hclosed) h.pending_ne

theorem Fills.valid (h : Fills op p p') (hp : p.Valid) : p'.Valid := by
  intro hclosed
  rw [h.closed_eq] at hclosed
  rw [h.pending_eq]
  exact hp hclosed

/-- What an extraction gives when it ends does not depend on what has arrived by then. -/
theorem extracted_stream (hop : Incremental op) (hp : p.Valid) (hready : p.Ready op) :
    op p.stream = ((op p.arrived).1, (p.extracted op).stream) := by
  rcases hready with heof | ⟨hclosed, hflight⟩
  · exact hop.stable _ _ heof
  · have hpending := hp hclosed
    rw [stream, stream, extracted, hflight, hpending, List.append_nil, IStream.extend_nil, IStream.extend_nil]

/-- While an extraction waits, the reader, the writer or the end of the pipe is to come. -/
theorem waiting (op : IStream → α × IStream) (p : Pipe) (hcapacity : 0 < capacity) :
    p.Ready op ∨ (∃ p', Fills op p p') ∨ (∃ p', Writes capacity p p') ∨
      p.closed = false ∧ p.pending = [] ∧ p.inFlight = [] := by
  by_cases hready : p.Ready op
  · exact .inl hready
  · have hshort : (op p.arrived).2.eofbit = true := by
      by_contra h
      exact hready (.inl (by simpa using h))
    by_cases hflight : p.inFlight = []
    · have hopen : p.closed = false := by
        by_contra h
        exact hready (.inr ⟨by simpa using h, hflight⟩)
      by_cases hpending : p.pending = []
      · exact .inr (.inr (.inr ⟨hopen, hpending, hflight⟩))
      · have hpos := List.length_pos_iff.mpr hpending
        exact .inr (.inr (.inl ⟨_, .write 1 Nat.one_pos hpos (by rw [hflight]; exact hcapacity)⟩))
    · exact .inr (.inl ⟨_, .read hshort 1 Nat.one_pos (List.length_pos_iff.mpr hflight)⟩)

/-- The extraction of a whole message waits for all of it. -/
theorem ready_whole {bytes : List UInt8} (hop : Incremental op) (hopen : p.closed = false)
    (hstream : p.stream = .ofBytes bytes) (hwhole : (op (.ofBytes bytes)).2 = .ofBytes []) :
    p.Ready op ↔ p.pending = [] ∧ p.inFlight = [] := by
  constructor
  · rintro (heof | ⟨hclosed, -⟩)
    · have hall := hop.stable p.arrived (p.inFlight ++ p.pending) heof
      change op p.stream = _ at hall
      rw [hstream] at hall
      have hrest := congrArg IStream.rest (hwhole.symm.trans (congrArg Prod.snd hall))
      have hnil := (List.append_eq_nil_iff.mp hrest.symm).2
      exact ⟨(List.append_eq_nil_iff.mp hnil).2, (List.append_eq_nil_iff.mp hnil).1⟩
    · rw [hopen] at hclosed
      cases hclosed
  · rintro ⟨hpending, hflight⟩
    rw [stream, hflight, hpending, List.append_nil, IStream.extend_nil] at hstream
    rw [Ready, hstream, hwhole]
    exact .inl rfl

/-- A message goes on until it is there. -/
theorem message_waiting {bytes : List UInt8} (hop : Incremental op) (hopen : p.closed = false)
    (hstream : p.stream = .ofBytes bytes) (hwhole : (op (.ofBytes bytes)).2 = .ofBytes []) (hcapacity : 0 < capacity) :
    p.Ready op ∨ (∃ p', Fills op p p') ∨ ∃ p', Writes capacity p p' := by
  rcases waiting op p hcapacity with hready | hfills | hwrites | ⟨-, hpending, hflight⟩
  · exact .inl hready
  · exact .inr (.inl hfills)
  · exact .inr (.inr hwrites)
  · exact .inl ((ready_whole hop hopen hstream hwhole).mpr ⟨hpending, hflight⟩)

/-- When it is there, nothing of it is left in the pipe. -/
theorem message_there {bytes : List UInt8} (hop : Incremental op) (hopen : p.closed = false)
    (hstream : p.stream = .ofBytes bytes) (hwhole : (op (.ofBytes bytes)).2 = .ofBytes []) (hready : p.Ready op) :
    p = { arrived := .ofBytes bytes } := by
  obtain ⟨hpending, hflight⟩ := (ready_whole hop hopen hstream hwhole).mp hready
  rw [stream, hflight, hpending, List.append_nil, IStream.extend_nil] at hstream
  obtain ⟨pending, inFlight, closed, arrived⟩ := p
  cases hpending
  cases hflight
  cases hopen
  cases hstream
  rfl

end Pipe

/-! ### A dialogue -/

/-- What the program does next: it reads an entry from the source, asks the server, or ends. -/
inductive Move (C E R α : Type) where
  | read (next : E → C)
  | ask (request : List UInt8) (next : R → C)
  | done (result : α)

/-- A program with a source and a server: how it reads entries and replies, the delimiter with
which a request ends, what the server replies to a request, whether it writes out the replies it
holds before it reads on, and how many bytes each pipe holds. -/
structure Dialogue (C E R α : Type) where
  move : C → Move C E R α
  readEntry : IStream → E × IStream
  readReply : IStream → R × IStream
  delim : UInt8
  answer : List UInt8 → List UInt8
  flushes : List UInt8 → Bool
  sourceCapacity : Nat
  requestCapacity : Nat
  replyCapacity : Nat

namespace Dialogue
variable {C E R α : Type}

inductive Control (C R α : Type) where
  | running (c : C)
  /-- A request is being written, or its reply is awaited. -/
  | asked (next : R → C)
  | waitingSource (result : α)
  | waitingServer (result : α)
  | ended (result : α)

structure State (C R α : Type) where
  control : Control C R α
  source : Pipe
  requests : Pipe := {}
  replies : Pipe := {}
  /-- the replies that the server has not written out -/
  held : List UInt8 := []

/-- The source has its output to write, and the server waits. -/
def start (c : C) (output : List UInt8) : State C R α :=
  { control := .running c, source := { pending := output } }

def readRequest (D : Dialogue C E R α) (s : IStream) : List UInt8 × IStream := s.getline D.delim

/-- The server is neither writing nor gone. -/
def State.Serving (s : State C R α) : Prop := s.replies.pending = [] ∧ s.replies.closed = false

/-- The server has replied to a request and writes out all it holds, or holds it back. -/
def State.replying (D : Dialogue C E R α) (s : State C R α) (request : List UInt8) : State C R α :=
  if D.flushes (s.held ++ D.answer request) then
    { s with replies := { s.replies with pending := s.held ++ D.answer request }, held := [] }
  else { s with held := s.held ++ D.answer request }

/-- One step of one of the three. A process closes its end of a pipe by its exit, but for the
program, which closes its end of the requests when the source has exited. -/
inductive Step (D : Dialogue C E R α) (s : State C R α) : State C R α → Prop
  | sourceWrites (source : Pipe) (h : Pipe.Writes D.sourceCapacity s.source source) : Step D s { s with source }
  | sourceExits (hopen : s.source.closed = false) (hpending : s.source.pending = []) :
    Step D s { s with source := { s.source with closed := true } }
  | readsSource (c : C) (next : E → C) (source : Pipe) (hcontrol : s.control = .running c)
    (hmove : D.move c = .read next) (h : Pipe.Fills D.readEntry s.source source) : Step D s { s with source }
  | takesEntry (c : C) (next : E → C) (hcontrol : s.control = .running c) (hmove : D.move c = .read next)
    (hready : s.source.Ready D.readEntry) :
    Step D s { s with
      control := .running (next (D.readEntry s.source.arrived).1), source := s.source.extracted D.readEntry }
  | asks (c : C) (request : List UInt8) (next : R → C) (hcontrol : s.control = .running c)
    (hmove : D.move c = .ask request next) :
    Step D s { s with control := .asked next, requests := { s.requests with pending := request ++ [D.delim] } }
  | writesRequest (next : R → C) (requests : Pipe) (hcontrol : s.control = .asked next)
    (h : Pipe.Writes D.requestCapacity s.requests requests) : Step D s { s with requests }
  | readsReply (next : R → C) (replies : Pipe) (hcontrol : s.control = .asked next)
    (hwritten : s.requests.pending = []) (h : Pipe.Fills D.readReply s.replies replies) : Step D s { s with replies }
  | takesReply (next : R → C) (hcontrol : s.control = .asked next) (hwritten : s.requests.pending = [])
    (hready : s.replies.Ready D.readReply) :
    Step D s { s with
      control := .running (next (D.readReply s.replies.arrived).1), replies := s.replies.extracted D.readReply }
  | finishes (c : C) (result : α) (hcontrol : s.control = .running c) (hmove : D.move c = .done result) :
    Step D s { s with control := .waitingSource result }
  | hangsUp (result : α) (hcontrol : s.control = .waitingSource result) (hexit : s.source.closed = true) :
    Step D s { s with control := .waitingServer result, requests := { s.requests with closed := true } }
  | ends (result : α) (hcontrol : s.control = .waitingServer result) (hexit : s.replies.closed = true) :
    Step D s { s with control := .ended result }
  | readsRequest (requests : Pipe) (hserving : s.Serving) (h : Pipe.Fills D.readRequest s.requests requests) :
    Step D s { s with requests }
  | answers (hserving : s.Serving) (hready : s.requests.Ready D.readRequest)
    (hmore : (D.readRequest s.requests.arrived).2.failbit = false) :
    Step D s (State.replying D { s with requests := s.requests.extracted D.readRequest }
      (D.readRequest s.requests.arrived).1)
  /-- Behind the last request the server writes out what it still holds. -/
  | writesHeld (hserving : s.Serving) (hready : s.requests.Ready D.readRequest)
    (hend : (D.readRequest s.requests.arrived).2.failbit = true) (hheld : s.held ≠ []) :
    Step D s { s with replies := { s.replies with pending := s.held }, held := [] }
  | serverExits (hserving : s.Serving) (hready : s.requests.Ready D.readRequest)
    (hend : (D.readRequest s.requests.arrived).2.failbit = true) (hheld : s.held = []) :
    Step D s { s with replies := { s.replies with closed := true } }
  | serverWrites (replies : Pipe) (h : Pipe.Writes D.replyCapacity s.replies replies) : Step D s { s with replies }

/-- How much is to be done with a request and its reply. -/
def cost (D : Dialogue C E R α) (request : List UInt8) : Nat :=
  2 * (request.length + 1) + 2 * (D.answer request).length + 3

/-- The program by itself, on all of the source's output and with the replies at hand; the number
bounds what it takes. It has to read to the end of the source. -/
inductive Evals (D : Dialogue C E R α) : Nat → C → IStream → α → Prop
  | done {c : C} {s : IStream} {result : α} (hmove : D.move c = .done result) (hend : s.rest = []) :
    Evals D 0 c s result
  | read {w : Nat} {c : C} {s : IStream} {result : α} {next : E → C} (hmove : D.move c = .read next)
    (h : Evals D w (next (D.readEntry s).1) (D.readEntry s).2 result) : Evals D (w + 1) c s result
  | ask {w : Nat} {c : C} {s : IStream} {result : α} {request : List UInt8} {next : R → C}
    (hmove : D.move c = .ask request next) (hrequest : D.delim ∉ request)
    (h : Evals D w (next (D.readReply (.ofBytes (D.answer request))).1) s result) :
    Evals D (w + D.cost request) c s result

/-- What the parties have agreed on: the server replies to every request and writes the reply out
before it reads on, and the program takes of each reply all there is and no more. -/
structure Lawful (D : Dialogue C E R α) : Prop where
  readEntry : Incremental D.readEntry
  readReply : Incremental D.readReply
  answer_ne : ∀ request, D.delim ∉ request → D.answer request ≠ []
  flushes : ∀ request, D.delim ∉ request → D.flushes (D.answer request) = true
  whole : ∀ request, D.delim ∉ request → (D.readReply (.ofBytes (D.answer request))).2 = .ofBytes []
  source_pos : 0 < D.sourceCapacity
  request_pos : 0 < D.requestCapacity
  reply_pos : 0 < D.replyCapacity

/-- The dialogue is over: the program has its result, and both processes have written all they had
to write and have exited. -/
structure Over (result : α) (s : State C R α) : Prop where
  control : s.control = .ended result
  source : s.source.closed = true ∧ s.source.pending = []
  replies : s.replies.closed = true ∧ s.replies.pending = []
  held : s.held = []

/-- The states of a dialogue that is to have this result, with what is left to be done in them. A
request is in its pipe and the reply in its, never both, and the server holds nothing back. -/
inductive Coherent (D : Dialogue C E R α) (result : α) : Nat → State C R α → Prop
  | running {w : Nat} {c : C} {source : Pipe} (hvalid : source.Valid) (h : D.Evals w c source.stream result) :
    Coherent D result (w + source.work + 5) { control := .running c, source }
  | asked {w : Nat} {request : List UInt8} {next : R → C} {source requests : Pipe} (hvalid : source.Valid)
    (hrequest : D.delim ∉ request) (hopen : requests.closed = false)
    (hstream : requests.stream = .ofBytes (request ++ [D.delim]))
    (h : D.Evals w (next (D.readReply (.ofBytes (D.answer request))).1) source.stream result) :
    Coherent D result (w + source.work + requests.work + 2 * (D.answer request).length + 6)
      { control := .asked next, source, requests }
  | answered {w : Nat} {request : List UInt8} {next : R → C} {source replies : Pipe} (hvalid : source.Valid)
    (hrequest : D.delim ∉ request) (hopen : replies.closed = false)
    (hstream : replies.stream = .ofBytes (D.answer request))
    (h : D.Evals w (next (D.readReply (.ofBytes (D.answer request))).1) source.stream result) :
    Coherent D result (w + source.work + replies.work + 5) { control := .asked next, source, replies }
  | waitingSource {source : Pipe} (hvalid : source.Valid) (hend : source.stream.rest = []) :
    Coherent D result (source.work + 4) { control := .waitingSource result, source }
  | waitingServer {source : Pipe} (hvalid : source.Valid) (hexit : source.closed = true) :
    Coherent D result 3 { control := .waitingServer result, source, requests := { closed := true } }
  | hungUp {source : Pipe} (hvalid : source.Valid) (hexit : source.closed = true) :
    Coherent D result 2
      { control := .waitingServer result, source, requests := { closed := true }, replies := { closed := true } }
  | ended {source : Pipe} (hvalid : source.Valid) (hexit : source.closed = true) :
    Coherent D result 1
      { control := .ended result, source, requests := { closed := true }, replies := { closed := true } }

section
variable {D : Dialogue C E R α} {result : α} {n : Nat} {s t : State C R α} {op : IStream → E × IStream}

theorem coherent_start {w : Nat} {c : C} {output : List UInt8} (h : D.Evals w c (.ofBytes output) result) :
    ∃ n, Coherent D result n (start c output) :=
  ⟨_, .running (fun hclosed => by cases hclosed) h⟩

/-! What cannot happen at a pipe with nothing in it. -/

private theorem not_writes {capacity : Nat} {p p' : Pipe} (hp : p.pending = []) : ¬ Pipe.Writes capacity p p' :=
  fun h => h.pending_ne hp

private theorem not_fills {β : Type} {op : IStream → β × IStream} {p p' : Pipe} (hp : p.inFlight = []) :
    ¬ Pipe.Fills op p p' := by
  rintro ⟨-, n, hn, hle⟩
  rw [hp, List.length_nil] at hle
  omega

private theorem whole_request {request : List UInt8} (h : D.delim ∉ request) :
    D.readRequest (.ofBytes (request ++ [D.delim])) = (request, .ofBytes []) := by
  have hne : ∀ b ∈ request, decide (b ≠ D.delim) = true := fun b hb => by simpa using fun he : b = D.delim => h (he ▸ hb)
  rw [readRequest, IStream.getline, if_pos (IStream.ofBytes_good _), IStream.ofBytes_rest,
    List.takeWhile_append_of_pos hne, List.dropWhile_append_of_pos hne]
  simp [IStream.ofBytes]

private theorem not_ready_idle : ¬ Pipe.Ready D.readRequest {} := by
  rintro (heof | ⟨hclosed, -⟩)
  · rw [readRequest, IStream.getline] at heof
    cases heof
  · cases hclosed

/-- Until it is over, one of the three can go on. -/
theorem Coherent.live (hD : D.Lawful) (h : Coherent D result n s) (hover : ¬ Over result s) : ∃ t, Step D s t := by
  have hrequests : Incremental D.readRequest := Incremental.getline D.delim
  cases h with
  | @running w c source hvalid h =>
    cases h with
    | done hmove => exact ⟨_, .finishes _ _ rfl hmove⟩
    | ask hmove => exact ⟨_, .asks _ _ _ rfl hmove⟩
    | read hmove =>
      rcases source.waiting D.readEntry hD.source_pos with hready | ⟨p, hp⟩ | ⟨p, hp⟩ | ⟨hopen, hpending, -⟩
      · exact ⟨_, .takesEntry _ _ rfl hmove hready⟩
      · exact ⟨_, .readsSource _ _ p rfl hmove hp⟩
      · exact ⟨_, .sourceWrites p hp⟩
      · exact ⟨_, .sourceExits hopen hpending⟩
  | asked hvalid hrequest hopen hstream =>
    have hwhole := whole_request hrequest
    rcases Pipe.message_waiting hrequests hopen hstream (congrArg Prod.snd hwhole) hD.request_pos with
      hready | ⟨p, hp⟩ | ⟨p, hp⟩
    · have hthere := Pipe.message_there hrequests hopen hstream (congrArg Prod.snd hwhole) hready
      subst hthere
      exact ⟨_, .answers ⟨rfl, rfl⟩ hready (by rw [hwhole]; rfl)⟩
    · exact ⟨_, .readsRequest p ⟨rfl, rfl⟩ hp⟩
    · exact ⟨_, .writesRequest _ p rfl hp⟩
  | answered hvalid hrequest hopen hstream =>
    rcases Pipe.message_waiting hD.readReply hopen hstream (hD.whole _ hrequest) hD.reply_pos with
      hready | ⟨p, hp⟩ | ⟨p, hp⟩
    · exact ⟨_, .takesReply _ rfl rfl hready⟩
    · exact ⟨_, .readsReply _ p rfl rfl hp⟩
    · exact ⟨_, .serverWrites p hp⟩
  | @waitingSource source hvalid hend =>
    cases hclosed : source.closed with
    | true => exact ⟨_, .hangsUp result rfl hclosed⟩
    | false =>
      have hnil := (List.append_eq_nil_iff.mp hend).2
      exact ⟨_, .sourceExits hclosed (List.append_eq_nil_iff.mp hnil).2⟩
  | waitingServer hvalid hexit => exact ⟨_, .serverExits ⟨rfl, rfl⟩ (.inr ⟨rfl, rfl⟩) rfl rfl⟩
  | hungUp hvalid hexit => exact ⟨_, .ends result rfl rfl⟩
  | ended hvalid hexit => exact absurd ⟨rfl, ⟨hexit, hvalid hexit⟩, ⟨rfl, rfl⟩, rfl⟩ hover

/-- What the source does by itself leaves the dialogue as it is. -/
private theorem Coherent.source_step {source : Pipe} (h : Coherent D result n s) (hopen : s.source.closed = false)
    (hvalid : source.Valid) (hstream : source.stream = s.source.stream) (hwork : source.work < s.source.work) :
    ∃ m < n, Coherent D result m { s with source } := by
  cases h with
  | running _ h => exact ⟨_, by dsimp only at hwork ⊢; omega, .running hvalid (hstream ▸ h)⟩
  | asked _ hrequest hopen' hstream' h =>
    exact ⟨_, by dsimp only at hwork ⊢; omega, .asked hvalid hrequest hopen' hstream' (hstream ▸ h)⟩
  | answered _ hrequest hopen' hstream' h =>
    exact ⟨_, by dsimp only at hwork ⊢; omega, .answered hvalid hrequest hopen' hstream' (hstream ▸ h)⟩
  | waitingSource _ hend => exact ⟨_, by dsimp only at hwork ⊢; omega, .waitingSource hvalid (hstream ▸ hend)⟩
  | waitingServer _ hexit => rw [hexit] at hopen; cases hopen
  | hungUp _ hexit => rw [hexit] at hopen; cases hopen
  | ended _ hexit => rw [hexit] at hopen; cases hopen

theorem Coherent.valid (h : Coherent D result n s) : s.source.Valid := by
  cases h <;> assumption

theorem Coherent.held_eq (h : Coherent D result n s) : s.held = [] := by
  cases h <;> rfl

/-! What the state tells by the control of the program. -/

private theorem Evals.of_read {w : Nat} {c : C} {stream : IStream} {next : E → C} (hmove : D.move c = .read next)
    (h : D.Evals w c stream result) :
    ∃ m < w, D.Evals m (next (D.readEntry stream).1) (D.readEntry stream).2 result := by
  cases h with
  | done hmove' => rw [hmove] at hmove'; cases hmove'
  | ask hmove' => rw [hmove] at hmove'; cases hmove'
  | read hmove' h =>
    rw [hmove] at hmove'
    cases hmove'
    exact ⟨_, Nat.lt_succ_self _, h⟩

private theorem Evals.of_ask {w : Nat} {c : C} {stream : IStream} {request : List UInt8} {next : R → C}
    (hmove : D.move c = .ask request next) (h : D.Evals w c stream result) :
    ∃ m, w = m + D.cost request ∧ D.delim ∉ request ∧
      D.Evals m (next (D.readReply (.ofBytes (D.answer request))).1) stream result := by
  cases h with
  | done hmove' => rw [hmove] at hmove'; cases hmove'
  | read hmove' => rw [hmove] at hmove'; cases hmove'
  | ask hmove' hrequest h =>
    rw [hmove] at hmove'
    cases hmove'
    exact ⟨_, rfl, hrequest, h⟩

private theorem Evals.of_done {w : Nat} {c : C} {stream : IStream} {a : α} (hmove : D.move c = .done a)
    (h : D.Evals w c stream result) : a = result ∧ stream.rest = [] := by
  cases h with
  | read hmove' => rw [hmove] at hmove'; cases hmove'
  | ask hmove' => rw [hmove] at hmove'; cases hmove'
  | done hmove' hend =>
    rw [hmove] at hmove'
    cases hmove'
    exact ⟨rfl, hend⟩

private theorem Coherent.of_running {c : C} (hcontrol : s.control = .running c) (h : Coherent D result n s) :
    ∃ w source, s = { control := .running c, source } ∧ n = w + source.work + 5 ∧ source.Valid ∧
      D.Evals w c source.stream result := by
  cases h with
  | running hvalid h =>
    cases hcontrol
    exact ⟨_, _, rfl, rfl, hvalid, h⟩
  | _ => cases hcontrol

/-- While the program has asked, the request is under way, or else the reply is. -/
private theorem Coherent.of_asked {next : R → C} (hcontrol : s.control = .asked next) (h : Coherent D result n s) :
    ∃ w request source, D.delim ∉ request ∧ source.Valid ∧
      D.Evals w (next (D.readReply (.ofBytes (D.answer request))).1) source.stream result ∧
      ((∃ requests, requests.closed = false ∧ requests.stream = .ofBytes (request ++ [D.delim]) ∧
          s = { control := .asked next, source, requests } ∧
          n = w + source.work + requests.work + 2 * (D.answer request).length + 6) ∨
        ∃ replies, replies.closed = false ∧ replies.stream = .ofBytes (D.answer request) ∧
          s = { control := .asked next, source, replies } ∧ n = w + source.work + replies.work + 5) := by
  cases h with
  | asked hvalid hrequest hopen hstream h =>
    cases hcontrol
    exact ⟨_, _, _, hrequest, hvalid, h, .inl ⟨_, hopen, hstream, rfl, rfl⟩⟩
  | answered hvalid hrequest hopen hstream h =>
    cases hcontrol
    exact ⟨_, _, _, hrequest, hvalid, h, .inr ⟨_, hopen, hstream, rfl, rfl⟩⟩
  | _ => cases hcontrol

/-- No reply is there before the server has written it. -/
private theorem not_ready_reply (hD : D.Lawful) {request : List UInt8} (hrequest : D.delim ∉ request) :
    ¬ Pipe.Ready D.readReply {} := by
  rintro (heof | ⟨hclosed, -⟩)
  · have hall := hD.readReply.stable (.ofBytes []) (D.answer request) heof
    rw [IStream.extend_ofBytes, List.nil_append] at hall
    have hrest := congrArg IStream.rest ((hD.whole request hrequest).symm.trans (congrArg Prod.snd hall))
    exact hD.answer_ne request hrequest (List.append_eq_nil_iff.mp hrest.symm).2
  · cases hclosed

/-- Each step of a dialogue leaves less to be done. -/
theorem Coherent.step (hD : D.Lawful) (h : Coherent D result n s) (hst : Step D s t) :
    ∃ m < n, Coherent D result m t := by
  have hrequests : Incremental D.readRequest := Incremental.getline D.delim
  cases hst with
  | sourceWrites source hw =>
    have hopen : s.source.closed = false := by
      by_contra hclosed
      exact hw.pending_ne (h.valid (by simpa using hclosed))
    exact h.source_step hopen (hw.valid h.valid) hw.stream_eq hw.work_lt
  | sourceExits hopen hpending =>
    have hwork : ({ s.source with closed := true } : Pipe).work < s.source.work := by simp [Pipe.work, hopen]
    exact h.source_step hopen (fun _ => hpending) rfl hwork
  | readsSource c next source hcontrol hmove hf =>
    obtain ⟨w, source', rfl, rfl, hvalid, h⟩ := h.of_running hcontrol
    have hlt : source.work < source'.work := hf.work_lt
    exact ⟨w + source.work + 5, by omega, .running (hf.valid hvalid) (hf.stream_eq ▸ h)⟩
  | takesEntry c next hcontrol hmove hready =>
    obtain ⟨w, source, rfl, rfl, hvalid, h⟩ := h.of_running hcontrol
    obtain ⟨m, hm, h⟩ := h.of_read hmove
    rw [Pipe.extracted_stream hD.readEntry hvalid hready] at h
    have hwork : (source.extracted D.readEntry).work = source.work := rfl
    exact ⟨m + (source.extracted D.readEntry).work + 5, by omega, .running hvalid h⟩
  | asks c request next hcontrol hmove =>
    obtain ⟨w, source, rfl, rfl, hvalid, h⟩ := h.of_running hcontrol
    obtain ⟨m, rfl, hrequest, h⟩ := h.of_ask hmove
    refine ⟨_, ?_, .asked hvalid hrequest rfl rfl h⟩
    simp only [cost, Pipe.work, List.length_append, List.length_singleton, List.length_nil, Bool.false_eq_true, if_false]
    omega
  | writesRequest next requests hcontrol hw =>
    obtain ⟨w, request, source, hrequest, hvalid, he, ⟨requests', hopen, hstream, rfl, rfl⟩ | ⟨_, _, _, rfl, _⟩⟩ :=
      h.of_asked hcontrol
    · have hlt : requests.work < requests'.work := hw.work_lt
      exact ⟨w + source.work + requests.work + 2 * (D.answer request).length + 6, by omega,
        .asked hvalid hrequest (hw.closed_eq.trans hopen) (hw.stream_eq.trans hstream) he⟩
    · exact absurd hw (not_writes rfl)
  | readsReply next replies hcontrol hwritten hf =>
    obtain ⟨w, request, source, hrequest, hvalid, he, ⟨_, _, _, rfl, _⟩ | ⟨replies', hopen, hstream, rfl, rfl⟩⟩ :=
      h.of_asked hcontrol
    · exact absurd hf (not_fills rfl)
    · have hlt : replies.work < replies'.work := hf.work_lt
      exact ⟨w + source.work + replies.work + 5, by omega,
        .answered hvalid hrequest (hf.closed_eq.trans hopen) (hf.stream_eq.trans hstream) he⟩
  | takesReply next hcontrol hwritten hready =>
    obtain ⟨w, request, source, hrequest, hvalid, he, ⟨_, _, _, rfl, _⟩ | ⟨replies, hopen, hstream, rfl, rfl⟩⟩ :=
      h.of_asked hcontrol
    · exact absurd hready (not_ready_reply hD hrequest)
    · obtain rfl := Pipe.message_there hD.readReply hopen hstream (hD.whole request hrequest) hready
      refine ⟨w + source.work + 5, ?_, ?_⟩
      · simp [Pipe.work]
      have hidle : Pipe.extracted D.readReply { arrived := .ofBytes (D.answer request) } = {} :=
        congrArg (fun arrived => ({ arrived } : Pipe)) (hD.whole request hrequest)
      dsimp only
      rw [hidle]
      exact .running hvalid he
  | finishes c result' hcontrol hmove =>
    obtain ⟨w, source, rfl, rfl, hvalid, h⟩ := h.of_running hcontrol
    obtain ⟨rfl, hend⟩ := h.of_done hmove
    exact ⟨source.work + 4, by omega, .waitingSource hvalid hend⟩
  | hangsUp result' hcontrol hexit =>
    cases h with
    | waitingSource hvalid hend =>
      cases hcontrol
      exact ⟨3, by omega, .waitingServer hvalid hexit⟩
    | _ => cases hcontrol
  | ends result' hcontrol hexit =>
    cases h with
    | hungUp hvalid hexit' =>
      cases hcontrol
      exact ⟨1, by omega, .ended hvalid hexit'⟩
    | waitingServer => cases hexit
    | _ => cases hcontrol
  | readsRequest requests hserving hf =>
    cases h with
    | @asked w request _ source requests' hvalid hrequest hopen hstream he =>
      have hlt : requests.work < requests'.work := hf.work_lt
      exact ⟨w + source.work + requests.work + 2 * (D.answer request).length + 6, by omega,
        .asked hvalid hrequest (hf.closed_eq.trans hopen) (hf.stream_eq.trans hstream) he⟩
    | _ => exact absurd hf (not_fills rfl)
  | answers hserving hready hmore =>
    cases h with
    | @asked w request _ source requests hvalid hrequest hopen hstream he =>
      have hwhole := whole_request hrequest
      obtain rfl := Pipe.message_there hrequests hopen hstream (congrArg Prod.snd hwhole) hready
      have hidle : Pipe.extracted D.readRequest { arrived := .ofBytes (request ++ [D.delim]) } = {} :=
        congrArg (fun arrived => ({ arrived } : Pipe)) (congrArg Prod.snd hwhole)
      dsimp only
      rw [hidle, hwhole, State.replying, List.nil_append, if_pos (hD.flushes request hrequest)]
      refine ⟨_, ?_, .answered hvalid hrequest rfl rfl he⟩
      simp only [Pipe.work, List.length_nil, Bool.false_eq_true, if_false]
      omega
    | waitingServer => cases hmore
    | hungUp => cases hmore
    | ended => cases hmore
    | _ => exact absurd hready not_ready_idle
  | writesHeld hserving hready hend hheld => exact absurd h.held_eq hheld
  | serverExits hserving hready hend =>
    cases h with
    | @asked w request _ source requests hvalid hrequest hopen hstream he =>
      have hwhole := whole_request hrequest
      obtain rfl := Pipe.message_there hrequests hopen hstream (congrArg Prod.snd hwhole) hready
      rw [hwhole] at hend
      cases hend
    | waitingServer hvalid hexit => exact ⟨2, by omega, .hungUp hvalid hexit⟩
    | hungUp => cases hserving.2
    | ended => cases hserving.2
    | _ => exact absurd hready not_ready_idle
  | serverWrites replies hw =>
    cases h with
    | @answered w request _ source replies' hvalid hrequest hopen hstream he =>
      have hlt : replies.work < replies'.work := hw.work_lt
      exact ⟨w + source.work + replies.work + 5, by omega,
        .answered hvalid hrequest (hw.closed_eq.trans hopen) (hw.stream_eq.trans hstream) he⟩
    | _ => exact absurd hw (not_writes rfl)

end

/-- Whatever the pipes hold and whoever goes on at each turn, the dialogue comes to its end, with
the result that the program has by itself. -/
theorem over_inevitable {D : Dialogue C E R α} (hD : D.Lawful) {w : Nat} {c : C} {output : List UInt8} {result : α}
    (h : D.Evals w c (.ofBytes output) result) :
    Inevitability.Inevitable (Step D) (Over result) (start c output) := by
  obtain ⟨n, hstart⟩ := coherent_start h
  exact .of_measure (fun n s hs => hs.live hD) (fun n s t hs => hs.step hD) hstart

/-- Nothing goes on when it is over: the server is gone, and nobody reads or asks. -/
theorem Over.final {D : Dialogue C E R α} {result : α} {s t : State C R α} (h : Over result s) : ¬ Step D s t := by
  intro hst
  cases hst with
  | sourceWrites source hw => exact hw.pending_ne h.source.2
  | sourceExits hopen => rw [h.source.1] at hopen; cases hopen
  | readsRequest requests hserving => cases h.replies.1.symm.trans hserving.2
  | answers hserving => cases h.replies.1.symm.trans hserving.2
  | writesHeld hserving => cases h.replies.1.symm.trans hserving.2
  | serverExits hserving => cases h.replies.1.symm.trans hserving.2
  | serverWrites replies hw => exact hw.pending_ne h.replies.2
  | readsSource _ _ _ hcontrol => cases h.control.symm.trans hcontrol
  | takesEntry _ _ hcontrol => cases h.control.symm.trans hcontrol
  | asks _ _ _ hcontrol => cases h.control.symm.trans hcontrol
  | writesRequest _ _ hcontrol => cases h.control.symm.trans hcontrol
  | readsReply _ _ hcontrol => cases h.control.symm.trans hcontrol
  | takesReply _ hcontrol => cases h.control.symm.trans hcontrol
  | finishes _ _ hcontrol => cases h.control.symm.trans hcontrol
  | hangsUp _ hcontrol => cases h.control.symm.trans hcontrol
  | ends _ hcontrol => cases h.control.symm.trans hcontrol

/-- A dialogue that cannot go on is over. -/
theorem over_of_stuck {D : Dialogue C E R α} (hD : D.Lawful) {w : Nat} {c : C} {output : List UInt8} {result : α}
    (h : D.Evals w c (.ofBytes output) result) {s : State C R α}
    (hrun : Relation.ReflTransGen (Step D) (start c output) s) (hstuck : ∀ t, ¬ Step D s t) : Over result s :=
  (over_inevitable hD h).of_stuck (fun _ _ hover => hover.final) hrun hstuck

end Dialogue
end Iostream
