import GitCrypt.Ofhbuf
import Mathlib.Data.List.Nodup

/-! A write function that may throw, under a caller that goes on: which bytes put into an `ofhbuf`
are accepted twice. -/
namespace GitCrypt
namespace Ofhbuf
variable {ω ε α β : Type}

/-- The state after the calls, made by a caller that goes on after an exception. -/
def after (f : WriteFun ω ε α) (ops : List (Op α)) (s : Ofhbuf ω α) : Ofhbuf ω α :=
  ops.foldl (fun s op => (perform f op s).2) s

/-! ### The condition -/

section
variable (f : WriteFun ω ε α)

/-- The call flushes the buffer, and the write function throws after it has taken a part of it. -/
def Cuts (s : Ofhbuf ω α) (op : Op α) : Prop := BufferedWriter.Cuts f s.writer (s.transfer op)

/-- If the call flushes the buffer, the write function throws at once. -/
def Refused (s : Ofhbuf ω α) (op : Op α) : Prop := BufferedWriter.Refused f s.writer (s.transfer op)

/-- The write function takes nothing more. -/
def AllRefused : List (Op α) → Ofhbuf ω α → Prop
  | [], _ => True
  | op :: ops, s => Refused f s op ∧ AllRefused ops (perform f op s).2

/-- After a flush that has been cut off, the write function takes nothing more. -/
def NeverResends : List (Op α) → Ofhbuf ω α → Prop
  | [], _ => True
  | op :: ops, s => (Cuts f s op → AllRefused f ops (perform f op s).2) ∧ NeverResends ops (perform f op s).2

end

variable {f : WriteFun ω ε α} {s : Ofhbuf ω α} {op : Op α} {ops : List (Op α)} {put : List α}

/-! ### Bytes that can be told apart -/

theorem perform_writer (h : s.Wf) (op : Op α) :
    (perform f op s).2.Wf ∧ (perform f op s).2.writer = (BufferedWriter.act f (s.transfer op) s.writer).2 :=
  (perform_matches h op).state

theorem bytesPut_cons (put : List α) (op : Op α) (ops : List (Op α)) :
    put ++ bytesPut (op :: ops) = put ++ op.bytes ++ bytesPut ops := (List.append_assoc _ _ _).symm

/-- What has been accepted stays accepted. -/
private theorem after_accepted (f : WriteFun ω ε α) (ops : List (Op α)) (h : s.Wf) :
    s.sink.accepted <+: (after f ops s).sink.accepted := by
  induction ops generalizing s with
  | nil => exact List.prefix_rfl
  | cons op ops ih =>
    obtain ⟨hwf, hwriter⟩ := perform_writer (f := f) h op
    have hone : s.sink.accepted <+: (perform f op s).2.writer.sink.accepted := by
      rw [hwriter]
      exact BufferedWriter.act_accepted f _ s.writer
    exact hone.trans (ih hwf)

private theorem after_torn (h : s.Wf) (hops : .unbuffered ∉ ops) (ht : BufferedWriter.Torn put s.writer)
    (hrefused : AllRefused f ops s) : BufferedWriter.Torn (put ++ bytesPut ops) (after f ops s).writer := by
  induction ops generalizing s put with
  | nil =>
    rw [show bytesPut ([] : List (Op α)) = [] from rfl, List.append_nil]
    exact ht
  | cons op ops ih =>
    obtain ⟨hop, hrest⟩ := Op.buffered_cons hops
    obtain ⟨hwf, hwriter⟩ := perform_writer (f := f) h op
    have hstep := ht.step (transfer_ne_drop s hop) hrefused.1
    rw [← hwriter, transfer_bytes] at hstep
    rw [bytesPut_cons]
    exact ih hwf hrest hstep hrefused.2

private theorem after_repeats (h : s.Wf) (hops : .unbuffered ∉ ops) (ht : BufferedWriter.Torn put s.writer)
    (hrefused : ¬ AllRefused f ops s) : ¬ (after f ops s).sink.accepted.Nodup := by
  induction ops generalizing s put with
  | nil => exact absurd trivial hrefused
  | cons op ops ih =>
    obtain ⟨hop, hrest⟩ := Op.buffered_cons hops
    obtain ⟨hwf, hwriter⟩ := perform_writer (f := f) h op
    by_cases hone : Refused f s op
    · have hstep := ht.step (transfer_ne_drop s hop) hone
      rw [← hwriter] at hstep
      exact ih hwf hrest hstep fun hall => hrefused ⟨hone, hall⟩
    · have hrepeats := ht.repeats hone
      rw [← hwriter] at hrepeats
      exact fun hnodup => hrepeats (hnodup.sublist (after_accepted f ops hwf).sublist)

theorem AllRefused.neverResends (h : AllRefused f ops s) : NeverResends f ops s := by
  induction ops generalizing s with
  | nil => trivial
  | cons op ops ih => exact ⟨fun hcuts => absurd hcuts h.1.not_cuts, ih h.2⟩

/-- Without a byte sent again, everything accepted has been put once and in order. -/
private theorem after_sublist (h : s.Wf) (hops : .unbuffered ∉ ops) (hi : BufferedWriter.Intact put s.writer)
    (hnever : NeverResends f ops s) : List.Sublist (after f ops s).sink.accepted (put ++ bytesPut ops) := by
  induction ops generalizing s put with
  | nil =>
    rw [show bytesPut ([] : List (Op α)) = [] from rfl, List.append_nil]
    exact hi.accepted
  | cons op ops ih =>
    obtain ⟨hop, hrest⟩ := Op.buffered_cons hops
    obtain ⟨hwf, hwriter⟩ := perform_writer (f := f) h op
    rw [bytesPut_cons]
    by_cases hcuts : Cuts f s op
    · have htorn := hi.torn hcuts
      rw [← hwriter, transfer_bytes] at htorn
      exact (after_torn hwf hrest htorn (hnever.1 hcuts)).1
    · have hstep := hi.step (transfer_ne_drop s hop) hcuts
      rw [← hwriter, transfer_bytes] at hstep
      exact ih hwf hrest hstep hnever.2

private theorem after_resends (h : s.Wf) (hops : .unbuffered ∉ ops) (hi : BufferedWriter.Intact put s.writer)
    (hresends : ¬ NeverResends f ops s) : ¬ (after f ops s).sink.accepted.Nodup := by
  induction ops generalizing s put with
  | nil => exact absurd trivial hresends
  | cons op ops ih =>
    obtain ⟨hop, hrest⟩ := Op.buffered_cons hops
    obtain ⟨hwf, hwriter⟩ := perform_writer (f := f) h op
    by_cases hcuts : Cuts f s op
    · have htorn := hi.torn hcuts
      rw [← hwriter] at htorn
      by_cases hall : AllRefused f ops (perform f op s).2
      · exact absurd ⟨fun _ => hall, hall.neverResends⟩ hresends
      · change ¬ (after f ops (perform f op s).2).sink.accepted.Nodup
        exact after_repeats hwf hrest htorn hall
    · have hstep := hi.step (transfer_ne_drop s hop) hcuts
      rw [← hwriter] at hstep
      exact ih hwf hrest hstep fun hnever => hresends ⟨fun hc => absurd hc hcuts, hnever⟩

/-! ### The run on bytes of which the write function sees a part -/

/-- The buffer with every byte changed by `g`. -/
def map (g : β → α) (s : Ofhbuf ω β) : Ofhbuf ω α :=
  ⟨s.handle, s.sink.map g, s.buffer.map g, s.bufferSize, s.pbase, s.pptr, s.epptr⟩

def Op.map (g : β → α) : Op β → Op α
  | .put c => .put (g c)
  | .write block => .write (block.map g)
  | .sync => .sync
  | .unbuffered => .unbuffered

/-- The two calls do the same, as far as `g` sees the bytes and `h` the results. -/
def Agree {γ γ' : Type} (g : β → α) (h : γ' → γ) (m' : Call ω ε β γ') (m : Call ω ε α γ) : Prop :=
  ∀ s, m (s.map g) = ((m' s).1.map h, (m' s).2.map g)

namespace Agree
variable {γ γ' δ δ' : Type} {g : β → α} {h : γ' → γ} {h' : δ' → δ} {m₁' m₂' : Call ω ε β γ'} {m₁ m₂ : Call ω ε α γ}

theorem pure {b : γ'} {a : γ} (hab : h b = a) :
    Agree g h (Pure.pure b : Call ω ε β γ') (Pure.pure a : Call ω ε α γ) := by
  intro s
  rw [← hab]
  rfl

theorem bind {k' : γ' → Call ω ε β δ'} {k : γ → Call ω ε α δ} (hm : Agree g h m₁' m₁)
    (hk : ∀ b, Agree g h' (k' b) (k (h b))) : Agree g h' (m₁' >>= k') (m₁ >>= k) := by
  intro s
  have hs := hm s
  rcases hr : m₁' s with ⟨e | b, s'⟩ <;> rw [hr] at hs
  · rw [Prog.bind_of_error hs, Prog.bind_of_error hr]
    rfl
  · rw [Prog.bind_of_ok hs, Prog.bind_of_ok hr]
    exact hk b s'

/-- Both may look at the state. -/
theorem get {k' : Ofhbuf ω β → Call ω ε β γ'} {k : Ofhbuf ω α → Call ω ε α γ}
    (hk : ∀ s, Agree g h (k' s) (k (s.map g))) : Agree g h (MonadState.get >>= k') (MonadState.get >>= k) :=
  fun s => hk s s

theorem ite {c : Prop} [Decidable c] (ht : Agree g h m₁' m₁) (hf : Agree g h m₂' m₂) :
    Agree g h (if c then m₁' else m₂') (if c then m₁ else m₂) := by
  split_ifs
  · exact ht
  · exact hf

end Agree

variable {g : β → α}

theorem storeAt_agree (p : Nat) (c : β) :
    Agree g id (storeAt p c : Call ω ε β Unit) (storeAt p (g c) : Call ω ε α Unit) := by
  apply Agree.get
  intro s
  change Agree g id (if s.buffer.Inside p 1 then _ else _) (if s.buffer.Inside p 1 then _ else _)
  apply Agree.ite
  · intro t
    change (Except.ok (), (⟨s.handle, s.sink.map g, (s.buffer.map g).store p ([c].map g), s.bufferSize, s.pbase,
      s.pptr, s.epptr⟩ : Ofhbuf ω α)) = _
    rw [← Memory.map_store]
    rfl
  · exact fun t => rfl

private theorem loadFrom_agree (p n : Nat) :
    Agree g (List.map g) (loadFrom p n : Call ω ε β (List β)) (loadFrom p n : Call ω ε α (List α)) := by
  apply Agree.get
  intro s
  change Agree g (List.map g) (if s.buffer.Inside p n then _ else _) (if s.buffer.Inside p n then _ else _)
  apply Agree.ite
  · exact .pure (Memory.map_load g).symm
  · exact fun t => rfl

theorem writeLoop_agree (f : WriteFun ω ε α) (block : List β) :
    Agree g id (writeLoop (f.comap g) block) (writeLoop f (block.map g)) := by
  intro s
  have h := f.writeAll_comap g block s.sink
  unfold writeLoop
  change ((f.writeAll (block.map g) (s.sink.map g)).1.mapError BufferError.thrown,
    (⟨s.handle, (f.writeAll (block.map g) (s.sink.map g)).2, s.buffer.map g, s.bufferSize, s.pbase, s.pptr,
      s.epptr⟩ : Ofhbuf ω α)) = _
  rw [h]
  rcases (f.comap g).writeAll block s.sink with ⟨e | u, sink⟩
  · rfl
  · rfl

theorem overflow_agree (f : WriteFun ω ε α) (c : Option β) :
    Agree g id (overflow (f.comap g) c) (overflow f (c.map g)) := by
  have hout (p n : Nat) : Agree g id
      (loadFrom p n >>= fun block => do
        writeLoop (f.comap g) block
        modify resetBuffer
        return 0 : Call ω ε β Int)
      (loadFrom p n >>= fun block => do
        writeLoop f block
        modify resetBuffer
        return 0 : Call ω ε α Int) :=
    .bind (loadFrom_agree p n) fun block => .bind (writeLoop_agree f block) fun _ => fun _ => rfl
  apply Agree.get
  intro s
  cases c with
  | none => exact hout s.pbase (s.pptr - s.pbase)
  | some c => exact .bind (storeAt_agree s.pptr c) fun _ => hout s.pbase (s.pptr - s.pbase + 1)

theorem sputc_agree (f : WriteFun ω ε α) (c : β) : Agree g id (sputc (f.comap g) c) (sputc f (g c)) := by
  apply Agree.get
  intro s
  apply Agree.ite
  · exact .bind (storeAt_agree s.pptr c) fun _ => fun _ => rfl
  · exact .bind (overflow_agree f (some c)) fun _ => .pure rfl

private theorem streambufXsputn_agree (f : WriteFun ω ε α) (block : List β) :
    Agree g id (streambufXsputn (f.comap g) block) (streambufXsputn f (block.map g)) := by
  induction block with
  | nil => exact .pure rfl
  | cons c block ih =>
    apply Agree.bind (sputc_agree f c)
    intro put
    exact .ite (.bind ih fun n => .pure rfl) (.pure rfl)

private theorem xsputn_agree (f : WriteFun ω ε α) (block : List β) :
    Agree g id (xsputn (f.comap g) block) (xsputn f (block.map g)) := by
  have hwrite : Agree g id (writeLoop (f.comap g) block >>= fun _ => return block.length)
      (writeLoop f (block.map g) >>= fun _ => return block.length) :=
    .bind (writeLoop_agree f block) fun _ => .pure rfl
  unfold xsputn
  simp only [List.length_map]
  apply Agree.get
  intro s
  exact .ite (streambufXsputn_agree f block) (.ite (.bind (overflow_agree f none) fun _ => hwrite) hwrite)

private theorem sync_agree (f : WriteFun ω ε α) : Agree g id (sync (f.comap g)) (sync f) :=
  .bind (overflow_agree f none) fun _ => .pure rfl

private theorem perform_agree (f : WriteFun ω ε α) (op : Op β) :
    Agree g id (perform (f.comap g) op) (perform f (op.map g)) := by
  cases op with
  | put c => exact .bind (sputc_agree f c) fun _ => .pure rfl
  | write block => exact .bind (xsputn_agree f block) fun _ => .pure rfl
  | sync => exact .bind (sync_agree f) fun _ => .pure rfl
  | unbuffered => exact fun s => rfl

theorem perform_map (f : WriteFun ω ε α) (op : Op β) (s : Ofhbuf ω β) :
    (perform f (op.map g) (s.map g)).2 = (perform (f.comap g) op s).2.map g := by
  rw [perform_agree f op s]

private theorem after_map (f : WriteFun ω ε α) (ops : List (Op β)) (s : Ofhbuf ω β) :
    after f (ops.map (Op.map g)) (s.map g) = (after (f.comap g) ops s).map g := by
  induction ops generalizing s with
  | nil => rfl
  | cons op ops ih =>
    change after f (ops.map (Op.map g)) (perform f (op.map g) (s.map g)).2 = _
    rw [perform_map, ih]
    rfl

theorem pending_map (g : β → α) (s : Ofhbuf ω β) : (s.map g).pending = s.pending.map g := Memory.map_load g

theorem flushed_map (g : β → α) (s : Ofhbuf ω β) (op : Op β) :
    ((s.map g).transfer (op.map g)).flushed (s.map g).pending =
      ((s.transfer op).flushed s.pending).map (List.map g) := by
  rw [pending_map]
  cases op with
  | put c =>
    change (if s.pptr < s.epptr then Transfer.keep [g c] else .flush (some (g c))).flushed _ =
      ((if s.pptr < s.epptr then Transfer.keep [c] else .flush (some c)).flushed s.pending).map _
    split_ifs
    · rfl
    · exact congrArg some (show s.pending.map g ++ [c].map g = _ from List.map_append.symm)
  | write block =>
    change (if (block.map g).length < min 4096 (s.epptr - s.pptr) then Transfer.keep (block.map g) else
        .direct (block.map g)).flushed _ =
      ((if block.length < min 4096 (s.epptr - s.pptr) then Transfer.keep block else
        .direct block).flushed s.pending).map _
    rw [List.length_map]
    split_ifs
    · rfl
    · rfl
  | sync => exact congrArg some (show s.pending.map g ++ [].map g = _ from List.map_append.symm)
  | unbuffered => rfl

private theorem cuts_map (f : WriteFun ω ε α) (s : Ofhbuf ω β) (op : Op β) :
    Cuts f (s.map g) (op.map g) ↔ Cuts (f.comap g) s op := by
  have hflushed := flushed_map g s op
  have hpending : (s.map g).pending ≠ [] ↔ s.pending ≠ [] := by rw [pending_map, ne_eq, List.map_eq_nil_iff]
  apply and_congr hpending
  change (∃ block, ((s.map g).transfer (op.map g)).flushed (s.map g).pending = some block ∧ _) ↔
    ∃ block, (s.transfer op).flushed s.pending = some block ∧ _
  rw [hflushed]
  cases (s.transfer op).flushed s.pending with
  | none => simp
  | some block =>
    have hcut := f.cutsOff_comap g s.sink.handle block
    simp only [Option.map_some, Option.some.injEq, exists_eq_left']
    exact hcut.symm

private theorem refused_map (f : WriteFun ω ε α) (s : Ofhbuf ω β) (op : Op β) :
    Refused f (s.map g) (op.map g) ↔ Refused (f.comap g) s op := by
  change (∀ block, ((s.map g).transfer (op.map g)).flushed (s.map g).pending = some block → _) ↔
    ∀ block, (s.transfer op).flushed s.pending = some block → _
  rw [flushed_map g s op]
  cases (s.transfer op).flushed s.pending with
  | none => simp
  | some block =>
    simp only [Option.map_some, Option.some.injEq, forall_eq']
    exact Iff.rfl

private theorem allRefused_map (f : WriteFun ω ε α) (ops : List (Op β)) (s : Ofhbuf ω β) :
    AllRefused f (ops.map (Op.map g)) (s.map g) ↔ AllRefused (f.comap g) ops s := by
  induction ops generalizing s with
  | nil => exact Iff.rfl
  | cons op ops ih =>
    rw [List.map_cons, AllRefused, AllRefused, refused_map, perform_map, ih]

private theorem neverResends_map (f : WriteFun ω ε α) (ops : List (Op β)) (s : Ofhbuf ω β) :
    NeverResends f (ops.map (Op.map g)) (s.map g) ↔ NeverResends (f.comap g) ops s := by
  induction ops generalizing s with
  | nil => exact Iff.rfl
  | cons op ops ih =>
    rw [List.map_cons, NeverResends, NeverResends, cuts_map, perform_map, allRefused_map, ih]

/-! ### Numbered bytes -/

/-- The bytes of a call with their places among all the bytes put, from `n` on. -/
def Op.number (n : Nat) : Op α → Op (α × Nat)
  | .put c => .put (c, n)
  | .write block => .write (block.zipIdx n)
  | .sync => .sync
  | .unbuffered => .unbuffered

def number (n : Nat) : List (Op α) → List (Op (α × Nat))
  | [] => []
  | op :: ops => op.number n :: number (n + op.bytes.length) ops

theorem Op.number_map (n : Nat) (op : Op α) : (op.number n).map Prod.fst = op := by
  cases op with
  | put c => rfl
  | write block => exact congrArg Op.write (List.zipIdx_map_fst n block)
  | sync => rfl
  | unbuffered => rfl

theorem Op.number_bytes (n : Nat) (op : Op α) : (op.number n).bytes = op.bytes.zipIdx n := by
  cases op with
  | put c => rfl
  | write block => rfl
  | sync => rfl
  | unbuffered => rfl

theorem number_map (n : Nat) (ops : List (Op α)) : (number n ops).map (Op.map Prod.fst) = ops := by
  induction ops generalizing n with
  | nil => rfl
  | cons op ops ih => rw [number, List.map_cons, Op.number_map, ih]

theorem number_bytes (n : Nat) (ops : List (Op α)) : bytesPut (number n ops) = (bytesPut ops).zipIdx n := by
  induction ops generalizing n with
  | nil => rfl
  | cons op ops ih =>
    change (op.number n).bytes ++ bytesPut (number (n + op.bytes.length) ops) = (op.bytes ++ bytesPut ops).zipIdx n
    rw [Op.number_bytes, ih, List.zipIdx_append]

private theorem number_append (n : Nat) (ops more : List (Op α)) :
    number n (ops ++ more) = number n ops ++ number (n + (bytesPut ops).length) more := by
  induction ops generalizing n with
  | nil => rfl
  | cons op ops ih =>
    have hlength : n + op.bytes.length + (bytesPut ops).length = n + (bytesPut (op :: ops)).length := by
      change _ = n + (op.bytes ++ bytesPut ops).length
      rw [List.length_append, Nat.add_assoc]
    rw [List.cons_append, number, number, ih, hlength, List.cons_append]

theorem number_buffered (n : Nat) (hops : .unbuffered ∉ ops) : .unbuffered ∉ number n ops := by
  induction ops generalizing n with
  | nil => exact List.not_mem_nil
  | cons op ops ih =>
    obtain ⟨hop, hrest⟩ := Op.buffered_cons hops
    rw [number, List.mem_cons, not_or]
    refine ⟨?_, ih _ hrest⟩
    cases op with
    | put c => nofun
    | write block => nofun
    | sync => nofun
    | unbuffered => exact absurd rfl hop

private theorem zipIdx_nodup (bytes : List α) : bytes.zipIdx.Nodup := by
  apply List.Nodup.of_map Prod.snd
  rw [List.zipIdx_map_snd]
  exact List.nodup_range'

/-! ### The bytes that are accepted, and how often -/

/-- The calls that a stream sees in the end: its destructor is one more `sync`, where the handle is
not null. -/
def withDestructor (handle : Bool) (ops : List (Op α)) : List (Op α) :=
  ops ++ if handle = true then [.sync] else []

private theorem withDestructor_buffered (handle : Bool) (hops : .unbuffered ∉ ops) :
    .unbuffered ∉ withDestructor handle ops := by
  unfold withDestructor
  rw [List.mem_append, not_or]
  refine ⟨hops, ?_⟩
  split_ifs <;> simp

/-- The destructor puts nothing. -/
private theorem withDestructor_bytes (handle : Bool) (ops : List (Op α)) :
    bytesPut (withDestructor handle ops) = bytesPut ops := by
  unfold withDestructor bytesPut
  rw [List.flatMap_append]
  cases handle with
  | true => exact List.append_nil _
  | false => exact List.append_nil _

theorem after_append (f : WriteFun ω ε α) (ops more : List (Op α)) (s : Ofhbuf ω α) :
    after f (ops ++ more) s = after f more (after f ops s) := List.foldl_append

theorem after_wf (f : WriteFun ω ε α) (ops : List (Op α)) (h : s.Wf) : (after f ops s).Wf := by
  induction ops generalizing s with
  | nil => exact h
  | cons op ops ih => exact ih (perform_writer h op).1

private theorem after_handle (f : WriteFun ω ε α) (ops : List (Op α)) (s : Ofhbuf ω α) :
    (after f ops s).handle = s.handle := by
  induction ops generalizing s with
  | nil => rfl
  | cons op ops ih => exact (ih _).trans (perform_keepsHandle f op s)

theorem destroy_run (f : WriteFun ω ε α) (h : s.Wf) :
    destroy f s = (.ok (), after f (if s.handle = true then [.sync] else []) s) := by
  cases hhandle : s.handle with
  | false =>
    rw [destroy_of_null f hhandle]
    rfl
  | true =>
    have hmatches := perform_matches (f := f) h .sync
    have hrun : destroy f s = tryCatch (perform f .sync) (BufferError.catchAll ()) s := by
      change ((if s.handle = true then _ else _ : Call ω ε α Unit) s) = _
      rw [if_pos hhandle]
      rfl
    change _ = (Except.ok (), (perform f .sync s).2)
    generalize hr : perform f .sync s = r at hmatches ⊢
    generalize BufferedWriter.act f (s.transfer .sync) s.writer = r' at hmatches
    cases hmatches with
    | returned s' h => rw [hrun, Prog.tryCatch_of_ok hr]
    | thrown e s' h =>
      rw [hrun, Prog.tryCatch_of_error hr]
      rfl

/-- The run on the numbered bytes. The write function still sees the bytes alone. -/
def numberedRun (f : WriteFun ω ε α) (handle : Bool) (w : ω) (cells : Nat → α) (ops : List (Op α)) :
    Ofhbuf ω (α × Nat) :=
  after (f.comap Prod.fst) (number 0 ops) (create handle ⟨w, []⟩ fun i => (cells i, 0))

/-- It is the run on the bytes. -/
theorem numberedRun_map (f : WriteFun ω ε α) (handle : Bool) (w : ω) (cells : Nat → α) (ops : List (Op α)) :
    (numberedRun f handle w cells ops).map Prod.fst = after f ops (create handle ⟨w, []⟩ cells) := by
  have h := after_map (g := Prod.fst) f (number 0 ops) (create handle ⟨w, []⟩ fun i => (cells i, 0))
  rw [number_map] at h
  exact h.symm

/-- At any time during the calls, and after the destructor, every byte put has been accepted at most
once, and in order. -/
def AcceptedOnce (f : WriteFun ω ε α) (handle : Bool) (w : ω) (cells : Nat → α) (ops : List (Op α)) : Prop :=
  (∀ done, done <+: ops → List.Sublist (numberedRun f handle w cells done).sink.accepted (bytesPut done).zipIdx) ∧
  List.Sublist (destroy (f.comap Prod.fst) (numberedRun f handle w cells ops)).2.sink.accepted (bytesPut ops).zipIdx

theorem AllRefused.of_append {done rest : List (Op α)} (h : AllRefused f (done ++ rest) s) : AllRefused f done s := by
  induction done generalizing s with
  | nil => trivial
  | cons op done ih => exact ⟨h.1, ih h.2⟩

theorem NeverResends.of_append {done rest : List (Op α)} (h : NeverResends f (done ++ rest) s) :
    NeverResends f done s := by
  induction done generalizing s with
  | nil => trivial
  | cons op done ih => exact ⟨fun hcuts => (h.1 hcuts).of_append, ih h.2⟩

section
variable (f : WriteFun ω ε α) (handle : Bool) (w : ω) (cells : Nat → α)

theorem neverResends_number (ops : List (Op α)) :
    NeverResends f ops (create handle ⟨w, []⟩ cells) ↔
      NeverResends (f.comap Prod.fst) (number 0 ops) (create handle ⟨w, []⟩ fun i => (cells i, 0)) := by
  have hmap := neverResends_map (g := Prod.fst) f (number 0 ops) (create handle ⟨w, []⟩ fun i => (cells i, 0))
  rwa [number_map] at hmap

theorem create_intact : BufferedWriter.Intact [] (create handle (⟨w, []⟩ : Sink ω α) cells).writer :=
  List.Sublist.refl []

theorem numberedRun_accepted (ops : List (Op α)) (hops : .unbuffered ∉ ops)
    (h : NeverResends f ops (create handle ⟨w, []⟩ cells)) :
    List.Sublist (numberedRun f handle w cells ops).sink.accepted (bytesPut ops).zipIdx := by
  have hsub := after_sublist (create_wf handle ⟨w, []⟩ fun i => (cells i, 0)) (number_buffered 0 hops)
    (create_intact handle w _) ((neverResends_number f handle w cells ops).mp h)
  rwa [List.nil_append, number_bytes] at hsub

private theorem numberedRun_resends (ops : List (Op α)) (hops : .unbuffered ∉ ops)
    (h : ¬ NeverResends f ops (create handle ⟨w, []⟩ cells)) :
    ¬ (numberedRun f handle w cells ops).sink.accepted.Nodup := by
  rw [neverResends_number] at h
  exact after_resends (create_wf handle ⟨w, []⟩ fun i => (cells i, 0)) (number_buffered 0 hops)
    (create_intact handle w _) h

theorem numberedRun_destroy (ops : List (Op α)) :
    (destroy (f.comap Prod.fst) (numberedRun f handle w cells ops)).2 =
      numberedRun f handle w cells (withDestructor handle ops) := by
  have hhandle : (numberedRun f handle w cells ops).handle = handle := after_handle _ _ _
  have hwf : (numberedRun f handle w cells ops).Wf := after_wf _ _ (create_wf handle ⟨w, []⟩ fun i => (cells i, 0))
  rw [destroy_run _ hwf, hhandle]
  unfold numberedRun withDestructor
  rw [number_append, after_append]
  cases handle with
  | true => rfl
  | false => rfl

/-- However the write function throws, every byte is accepted at most once just when after a flush
that was cut off, with a part of the buffer taken, it takes nothing more. -/
theorem acceptedOnce_iff (ops : List (Op α)) (hops : .unbuffered ∉ ops) :
    AcceptedOnce f handle w cells ops ↔
      NeverResends f (withDestructor handle ops) (create handle ⟨w, []⟩ cells) := by
  have hall := withDestructor_buffered handle hops
  unfold AcceptedOnce
  rw [numberedRun_destroy]
  constructor
  · rintro ⟨-, honce⟩
    by_contra hresends
    exact numberedRun_resends f handle w cells _ hall hresends (honce.nodup (zipIdx_nodup _))
  · intro hnever
    constructor
    · rintro done ⟨rest, hdone⟩
      subst hdone
      unfold withDestructor at hnever
      rw [List.append_assoc] at hnever
      exact numberedRun_accepted f handle w cells done (fun hmem => hops (by simp [hmem])) hnever.of_append
    · have hsub := numberedRun_accepted f handle w cells _ hall hnever
      rwa [withDestructor_bytes] at hsub

end

/-- A write function that takes one byte, then throws, and after that takes everything. -/
def failingOnce : WriteFun Nat Unit α where
  write calls bytes :=
    if calls = 0 then (.ok (min 1 bytes.length), 1)
    else if calls = 1 then (.error (), 2)
    else (.ok bytes.length, calls + 1)
  takes {w bytes k w'} hb hw := by
    have hlen := List.length_pos_iff.mpr hb
    split_ifs at hw
    · cases hw
      omega
    · cases hw
    · cases hw
      omega

theorem acceptedOnce_iff_oneSync :
    AcceptedOnce failingOnce true 0 (fun _ => (0 : Nat)) [.put 97, .sync] ↔
      NeverResends failingOnce (withDestructor true [.put 97, .sync]) (create true ⟨0, []⟩ fun _ => 0) :=
  acceptedOnce_iff failingOnce true 0 (fun _ => 0) [.put 97, .sync] (by decide)

/-- After a `sync` of two bytes that was cut off, the destructor sends the first of them again. -/
theorem destroy_resends :
    (destroy (failingOnce.comap Prod.fst) (numberedRun failingOnce true 0 (fun _ => (0 : Nat))
      [.put 97, .put 98, .sync])).2.sink.accepted = [(97, 0), (97, 0), (98, 1)] ∧
    ¬ AcceptedOnce failingOnce true 0 (fun _ => 0) [.put 97, .put 98, .sync] := by
  let f : WriteFun Nat Unit (Nat × Nat) := failingOnce.comap Prod.fst
  obtain ⟨s, hs⟩ : ∃ s, s = numberedRun failingOnce true 0 (fun _ => (0 : Nat)) [.put 97, .put 98] := ⟨_, rfl⟩
  have hwf : s.Wf := by
    rw [hs]
    exact after_wf f _ (create_wf true ⟨0, []⟩ fun _ => (0, 0))
  have hwriter : s.writer = ⟨⟨0, []⟩, [(97, 0), (98, 1)]⟩ := by
    rw [hs]
    rfl
  have hcut : f.writeAll [(97, 0), (98, 1)] ⟨0, []⟩ = (.error (), ⟨2, [(97, 0)]⟩) := by
    rw [WriteFun.writeAll_of_ok (w := 1) (k := 1) (by decide) rfl,
      WriteFun.writeAll_of_error (w := 2) (e := ()) (by decide) rfl]
    rfl
  have hall : f.writeAll [(97, 0), (98, 1)] ⟨2, [(97, 0)]⟩ = (.ok (), ⟨3, [(97, 0), (97, 0), (98, 1)]⟩) := by
    rw [WriteFun.writeAll_of_ok (w := 3) (k := 2) (by decide) rfl]
    exact WriteFun.writeAll_nil
  obtain ⟨hwf₁, hsync₁⟩ := perform_writer (f := f) hwf .sync
  have hwriter₁ : (perform f .sync s).2.writer = ⟨⟨2, [(97, 0)]⟩, [(97, 0), (98, 1)]⟩ := by
    rw [hsync₁, hwriter]
    exact congrArg Prod.snd (BufferedWriter.flush_error (c := none) hcut)
  obtain ⟨hwf₂, hsync₂⟩ := perform_writer (f := f) hwf₁ .sync
  have hwriter₂ : (after f [.sync, .sync] s).writer = ⟨⟨3, [(97, 0), (97, 0), (98, 1)]⟩, []⟩ := by
    change (perform f .sync (perform f .sync s).2).2.writer = _
    rw [hsync₂, hwriter₁]
    exact congrArg Prod.snd (BufferedWriter.flush_ok (c := none) hall)
  have hrun : numberedRun failingOnce true 0 (fun _ => 0) (withDestructor true [.put 97, .put 98, .sync]) =
      after f [.sync, .sync] s := by
    rw [hs]
    exact after_append f (number 0 [.put 97, .put 98]) [.sync, .sync] _
  have haccepted : (destroy f (numberedRun failingOnce true 0 (fun _ => 0)
      [.put 97, .put 98, .sync])).2.sink.accepted = [(97, 0), (97, 0), (98, 1)] := by
    rw [numberedRun_destroy, hrun]
    exact congrArg (fun w => w.sink.accepted) hwriter₂
  refine ⟨haccepted, fun honce => ?_⟩
  have hlength := honce.2.length_le
  rw [haccepted] at hlength
  exact absurd hlength (by decide)

end Ofhbuf
end GitCrypt
