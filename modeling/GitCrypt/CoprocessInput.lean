import GitCrypt.Util
import GitCrypt.WriteErrors

/-! `exec_command_with_input`: a block for the standard input of a child, through the stream on the
pipe to it. -/
namespace GitCrypt
variable {ω ε α : Type}

/-- `ofhstream`, the stream on an `ofhbuf`. -/
structure Ofhstream (ω α : Type) where
  buf : Ofhbuf ω α
  badbit : Bool

namespace Ofhstream

abbrev Call (ω ε α β : Type) := Prog (Ofhstream ω α) (BufferError ε) β

def create (sink : Sink ω α) (cells : Nat → α) : Ofhstream ω α := ⟨.create true sink cells, false⟩

def onBuf {β : Type} (m : Ofhbuf.Call ω ε α β) : Call ω ε α β :=
  fun s => ((m s.buf).1, { s with buf := (m s.buf).2 })

/-- `std::ostream::write`. An exception of the buffer, or a short count, sets badbit. -/
def write (f : WriteFun ω ε α) (block : List α) : Call ω ε α Unit := do
  let s ← get
  if s.badbit = false then
    let written ← tryCatch (do
      let n ← onBuf (Ofhbuf.xsputn f block)
      return decide (n = block.length)) (BufferError.catchAll false)
    modify fun s => { s with badbit := !written }

end Ofhstream

/-- What the operating system does around a child: it makes the pipe, starts the child on it, closes
the pipe, and waits for the child to end. -/
structure Child (ω ε : Type) where
  pipe : Prog ω ε Unit
  spawn : List Bytes → Prog ω ε Unit
  close : ω → ω
  wait : Prog ω ε Int

namespace Coprocess

abbrev Call (ω ε α β : Type) := Prog (Sink ω α) (BufferError ε) β

def outside {β : Type} (m : Prog ω ε β) : Call ω ε α β :=
  fun s => ((m s.handle).1.mapError .thrown, ⟨(m s.handle).2, s.accepted⟩)

/-- `proc_stdin->write` and the `delete stdin_pipe_ostream` of `close_stdin`. The stream is made with
the pipe, and does nothing before. -/
def writeStdin (f : WriteFun ω ε α) (cells : Nat → α) (block : List α) : Call ω ε α Unit := fun sink =>
  let r := (do
    Ofhstream.write f block
    Ofhstream.onBuf (Ofhbuf.destroy f) : Ofhstream.Call ω ε α Unit) (.create sink cells)
  (r.1, r.2.buf.sink)

/-- The system that git-crypt was built for. -/
inductive Platform where
  | unix
  | windows
  deriving DecidableEq

/-- `exit_status`, with `WIFEXITED` and `WEXITSTATUS` on Unix. -/
def exitStatus : Platform → Int → Int
  | .unix, status => if status ≠ -1 ∧ status % 128 = 0 then status / 256 % 256 else -1
  | .windows, status => status

def successfulExit (platform : Platform) (status : Int) : Bool := exitStatus platform status = 0

/-- `exec_command_with_input` -/
def execCommandWithInput (f : WriteFun ω ε α) (child : Child ω ε) (args : List Bytes) (cells : Nat → α)
    (block : List α) : Call ω ε α Int := do
  outside child.pipe
  outside (child.spawn args)
  writeStdin f cells block
  modify fun s => ⟨child.close s.handle, s.accepted⟩
  outside child.wait

end Coprocess

variable {f : WriteFun ω ε α} {block : List α}

/-- Whatever the buffer throws ends up in badbit. -/
theorem Ofhstream.write_run (f : WriteFun ω ε α) (block : List α) {b : Ofhbuf ω α} (h : b.Wf) :
    ∃ bad, Ofhstream.write f block ⟨b, false⟩ = (.ok (), ⟨(Ofhbuf.xsputn f block b).2, bad⟩) := by
  have hmatches := Ofhbuf.xsputn_matches (f := f) h block
  have hwrite : Ofhstream.write f block ⟨b, false⟩ = (do
      let written ← tryCatch (do
        let n ← onBuf (Ofhbuf.xsputn f block)
        return decide (n = block.length)) (BufferError.catchAll false)
      modify fun s => { s with badbit := !written } : Ofhstream.Call ω ε α Unit) ⟨b, false⟩ := rfl
  rw [hwrite]
  generalize hr : Ofhbuf.xsputn f block b = r at hmatches
  generalize BufferedWriter.act f (b.transfer (.write block)) b.writer = r' at hmatches
  have hbuf : (onBuf (Ofhbuf.xsputn f block) : Ofhstream.Call ω ε α Nat) ⟨b, false⟩ = (r.1, ⟨r.2, false⟩) := by
    rw [← hr]
    rfl
  cases hmatches with
  | returned b' h =>
    refine ⟨!decide (block.length = block.length), ?_⟩
    rw [Prog.bind_of_ok (Prog.tryCatch_of_ok (Prog.bind_of_ok hbuf _) _)]
    rfl
  | thrown e b' h =>
    have hthrown := Prog.bind_of_error hbuf fun n => (pure (decide (n = block.length)) : Ofhstream.Call ω ε α Bool)
    refine ⟨true, ?_⟩
    rw [Prog.bind_apply, Prog.tryCatch_of_error hthrown]
    rfl

namespace Coprocess

private theorem writeStdin_run (f : WriteFun ω ε α) (cells : Nat → α) (block : List α) (w : ω) :
    ∃ handle, writeStdin f cells block ⟨w, []⟩ = (.ok (), ⟨handle, (f.writeAll block ⟨w, []⟩).2.accepted⟩) := by
  let b : Ofhbuf ω α := .create true ⟨w, []⟩ cells
  have hwf : b.Wf := Ofhbuf.create_wf true ⟨w, []⟩ cells
  obtain ⟨bad, hwrite⟩ := Ofhstream.write_run f block hwf
  obtain ⟨hwf', hwriter⟩ := (Ofhbuf.xsputn_matches (f := f) hwf block).state
  have hhandle : (Ofhbuf.xsputn f block b).2.handle = true := Ofhbuf.xsputn_keepsHandle f block b
  have hdestroy := Ofhbuf.destroy_run f hwf'
  rw [hhandle, if_pos rfl] at hdestroy
  have hsync := (Ofhbuf.perform_writer (f := f) hwf' .sync).2
  rw [hwriter] at hsync
  have htransfer : b.transfer (.write block) = .keep block ∨ b.transfer (.write block) = .direct block := by
    simp only [Ofhbuf.transfer]
    split_ifs
    · exact Or.inl rfl
    · exact Or.inr rfl
  have hsink : (Ofhbuf.after f [.sync] (Ofhbuf.xsputn f block b).2).sink = (f.writeAll block ⟨w, []⟩).2 := by
    rw [← BufferedWriter.flush_after_block f ⟨w, []⟩ htransfer]
    exact congrArg BufferedWriter.sink hsync
  refine ⟨(f.writeAll block ⟨w, []⟩).2.handle, ?_⟩
  have hrun : (do
      Ofhstream.write f block
      Ofhstream.onBuf (Ofhbuf.destroy f) : Ofhstream.Call ω ε α Unit) (.create ⟨w, []⟩ cells) =
        (.ok (), ⟨Ofhbuf.after f [.sync] (Ofhbuf.xsputn f block b).2, bad⟩) := by
    change (Ofhstream.write f block >>= fun _ => Ofhstream.onBuf (Ofhbuf.destroy f)) ⟨b, false⟩ = _
    rw [Prog.bind_of_ok hwrite, Ofhstream.onBuf, hdestroy]
  unfold writeStdin
  rw [hrun]
  exact congrArg (fun sink => (Except.ok (), sink)) hsink

/-- What `execCommandWithInput` does before it writes. -/
def start (child : Child ω ε) (args : List Bytes) : Prog ω ε Unit := do
  child.pipe
  child.spawn args

theorem outside_ok {β : Type} {m : Prog ω ε β} {sink : Sink ω α} {b : β} {w : ω} (h : m sink.handle = (.ok b, w)) :
    (outside m : Call ω ε α β) sink = (.ok b, ⟨w, sink.accepted⟩) := by
  rw [outside, h]
  rfl

theorem outside_error {β : Type} {m : Prog ω ε β} {sink : Sink ω α} {e : ε} {w : ω}
    (h : m sink.handle = (.error e, w)) :
    (outside m : Call ω ε α β) sink = (.error (.thrown e), ⟨w, sink.accepted⟩) := by
  rw [outside, h]
  rfl

section
variable (f : WriteFun ω ε α) (child : Child ω ε) {args : List Bytes} (cells : Nat → α) (block : List α) {w w' : ω}

/-- Once the child is there, it gets what the write function takes of the block, and its exit status
is the result. -/
theorem execCommandWithInput_started (h : start child args w = (.ok (), w')) :
    ∃ handle, execCommandWithInput f child args cells block ⟨w, []⟩ =
      (outside child.wait : Call ω ε α Int) ⟨handle, (f.writeAll block ⟨w', []⟩).2.accepted⟩ := by
  obtain ⟨u, w₁, hpipe, hspawn⟩ := Prog.bind_ok h
  obtain ⟨handle, hwrite⟩ := writeStdin_run f cells block w'
  refine ⟨child.close handle, ?_⟩
  unfold execCommandWithInput
  rw [Prog.bind_of_ok (outside_ok hpipe), Prog.bind_of_ok (outside_ok hspawn), Prog.bind_of_ok hwrite]
  rfl

private theorem execCommandWithInput_unstarted {e : ε} (h : start child args w = (.error e, w')) :
    execCommandWithInput f child args cells block ⟨w, []⟩ = (.error (.thrown e), ⟨w', []⟩) := by
  unfold execCommandWithInput
  rcases hpipe : child.pipe w with ⟨e' | u, w₁⟩
  · have hstart := Prog.bind_of_error hpipe fun _ => child.spawn args
    cases h.symm.trans hstart
    rw [Prog.bind_of_error (outside_error hpipe)]
  · have hstart := Prog.bind_of_ok hpipe fun _ => child.spawn args
    have hspawn : child.spawn args w₁ = (.error e, w') := hstart.symm.trans h
    rw [Prog.bind_of_ok (outside_ok hpipe), Prog.bind_of_error (outside_error hspawn)]

end

/-- If the call returns with a successful status, the child has received exactly the block. -/
def Delivers (platform : Platform) (f : WriteFun ω ε α) (child : Child ω ε) (args : List Bytes) (cells : Nat → α)
    (block : List α) (w : ω) : Prop :=
  ∀ status sink, execCommandWithInput f child args cells block ⟨w, []⟩ = (.ok status, sink) →
    successfulExit platform status = true → sink.accepted = block

/-- A child that may exit with any status has received the block, where that is success, just when the
pipe takes the whole block. -/
theorem delivers_iff (platform : Platform) (f : WriteFun ω ε α) (child : Child ω ε) (args : List Bytes)
    (cells : Nat → α) (block : List α) (w : ω) :
    (∀ wait, Delivers platform f { child with wait := wait } args cells block w) ↔
      ∀ w', start child args w = (.ok (), w') → f.TakesAll w' block := by
  constructor
  · intro h w' hstart
    obtain ⟨handle, hrun⟩ := execCommandWithInput_started f { child with wait := pure 0 } cells block hstart
    let sink : Sink ω α := ⟨handle, (f.writeAll block ⟨w', []⟩).2.accepted⟩
    have hsuccess : successfulExit platform 0 = true := by cases platform <;> decide
    exact WriteFun.accepted_all_iff.mp (h (pure 0) 0 sink hrun hsuccess)
  · intro h wait status sink hrun hsuccess
    rcases hstart : start child args w with ⟨e | u, w'⟩
    · rw [execCommandWithInput_unstarted f { child with wait := wait } cells block hstart] at hrun
      cases hrun
    · obtain ⟨handle, hstarted⟩ := execCommandWithInput_started f { child with wait := wait } cells block hstart
      have hsink : sink.accepted = (f.writeAll block ⟨w', []⟩).2.accepted := by
        rw [hstarted] at hrun
        exact congrArg (fun r => r.2.accepted) hrun.symm
      rw [hsink]
      exact WriteFun.accepted_all_iff.mpr (h w' hstart)

/-- The pipe takes one byte of two and then fails, and the child exits with success. -/
theorem execCommandWithInput_cut_short :
    ∃ sink, execCommandWithInput Ofhbuf.failingOnce ⟨pure (), fun _ => pure (), id, pure 0⟩ [str "gpg", str "-e"]
        (fun _ => (0 : Nat)) [103, 112] ⟨0, []⟩ = (.ok 0, sink) ∧
      successfulExit .unix 0 = true ∧ sink.accepted = [103] := by
  have hcut : (Ofhbuf.failingOnce : WriteFun Nat Unit Nat).writeAll [103, 112] ⟨0, []⟩ = (.error (), ⟨2, [103]⟩) := by
    rw [WriteFun.writeAll_of_ok (w := 1) (k := 1) (by decide) rfl,
      WriteFun.writeAll_of_error (w := 2) (e := ()) (by decide) rfl]
    rfl
  let child : Child Nat Unit := ⟨pure (), fun _ => pure (), id, pure 0⟩
  have hstart : start child [str "gpg", str "-e"] 0 = (.ok (), 0) := rfl
  obtain ⟨handle, hrun⟩ :=
    execCommandWithInput_started Ofhbuf.failingOnce child (fun _ => (0 : Nat)) [103, 112] hstart
  refine ⟨_, hrun, by decide, ?_⟩
  rw [hcut]

end Coprocess
end GitCrypt
