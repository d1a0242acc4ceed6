import GitCrypt.Library.ShortIO

/-! A writer that keeps bytes pending before it sends them on. What it does to its bytes is one of
four transfers, whichever rule picks the transfer. -/

/-- What a writer has sent and what it still keeps. -/
structure BufferedWriter (ω α : Type) where
  sink : Sink ω α
  pending : List α

/-- A step of a buffered writer: to keep bytes pending, to send what is pending with at most one
more byte, to send a block past what is pending, or to forget what is pending. -/
inductive Transfer (α : Type) where
  | keep (bytes : List α)
  | flush (c : Option α)
  | direct (block : List α)
  | drop

namespace Transfer
variable {ω ε α : Type}

/-- The bytes that the transfer brings. -/
def bytes : Transfer α → List α
  | keep bytes => bytes
  | flush c => c.toList
  | direct block => block
  | drop => []

/-- The block that the transfer sends from the buffer. -/
def flushed (pending : List α) : Transfer α → Option (List α)
  | keep _ => none
  | flush c => some (pending ++ c.toList)
  | direct _ => some pending
  | drop => none

end Transfer

namespace BufferedWriter
variable {ω ε α : Type}

def send (f : WriteFun ω ε α) (block : List α) : Prog (BufferedWriter ω α) ε Unit :=
  fun w => ((f.writeAll block w.sink).1, ⟨(f.writeAll block w.sink).2, w.pending⟩)

/-- What is pending is forgotten only when it has been sent. -/
def flush (f : WriteFun ω ε α) (c : Option α) : Prog (BufferedWriter ω α) ε Unit := do
  let w ← get
  send f (w.pending ++ c.toList)
  modify fun w => ⟨w.sink, []⟩

def act (f : WriteFun ω ε α) : Transfer α → Prog (BufferedWriter ω α) ε Unit
  | .keep bytes => modify fun w => ⟨w.sink, w.pending ++ bytes⟩
  | .flush c => flush f c
  | .direct block => do
    flush f none
    send f block
  | .drop => modify fun w => ⟨w.sink, []⟩

variable {f : WriteFun ω ε α} {w w' : BufferedWriter ω α} {block : List α} {c : Option α} {a : Transfer α} {e : ε}

/-! ### How a transfer ends -/

theorem send_ok {sink : Sink ω α} (h : f.writeAll block w.sink = (.ok (), sink)) :
    send f block w = (.ok (), ⟨sink, w.pending⟩) := by
  unfold send
  rw [h]

theorem send_error {sink : Sink ω α} (h : f.writeAll block w.sink = (.error e, sink)) :
    send f block w = (.error e, ⟨sink, w.pending⟩) := by
  unfold send
  rw [h]

theorem flush_ok {sink : Sink ω α} (h : f.writeAll (w.pending ++ c.toList) w.sink = (.ok (), sink)) :
    flush f c w = (.ok (), ⟨sink, []⟩) := by
  change (send f (w.pending ++ c.toList) >>= fun _ => modify fun w => ⟨w.sink, []⟩) w = _
  rw [Prog.bind_of_ok (send_ok h)]
  rfl

theorem flush_error {sink : Sink ω α} (h : f.writeAll (w.pending ++ c.toList) w.sink = (.error e, sink)) :
    flush f c w = (.error e, ⟨sink, w.pending⟩) := by
  change (send f (w.pending ++ c.toList) >>= fun _ => modify fun w => ⟨w.sink, []⟩) w = _
  rw [Prog.bind_of_error (send_error h)]

theorem flush_empty (f : WriteFun ω ε α) (h : w.pending = []) : flush f none w = (.ok (), w) := by
  have hrun : f.writeAll (w.pending ++ (none : Option α).toList) w.sink = (.ok (), w.sink) := by
    rw [h]
    exact f.writeAll_nil
  rw [flush_ok hrun, ← h]

/-- How a transfer that brings `bytes` can end: with nothing lost, or with an exception that a
flush or a direct block meets. The bytes of a failed flush stay pending, whatever was taken of
them. -/
inductive Ends (f : WriteFun ω ε α) (w : BufferedWriter ω α) (a : Transfer α) :
    Except ε Unit × BufferedWriter ω α → Prop where
  | done (w' : BufferedWriter ω α) (h : w'.sink.accepted ++ w'.pending = w.sink.accepted ++ w.pending ++ a.bytes) :
      Ends f w a (.ok (), w')
  | flushFailed (e : ε) (w' : BufferedWriter ω α) (taken rest : List α) (hthrows : ¬ f.Total)
      (hflushed : a.flushed w.pending = some (taken ++ rest)) (hrest : rest ≠ [])
      (hcut : taken ≠ [] → f.CutsOff w.sink.handle (taken ++ rest))
      (haccepted : w'.sink.accepted = w.sink.accepted ++ taken) (hpending : w'.pending = w.pending) :
      Ends f w a (.error e, w')
  | directFailed (e : ε) (w' : BufferedWriter ω α) (taken rest : List α) (hthrows : ¬ f.Total)
      (hbytes : a.bytes = taken ++ rest) (hrest : rest ≠ [])
      (haccepted : w'.sink.accepted = w.sink.accepted ++ w.pending ++ taken) (hpending : w'.pending = []) :
      Ends f w a (.error e, w')

theorem flush_ends (f : WriteFun ω ε α) (c : Option α) (w : BufferedWriter ω α) :
    Ends f w (.flush c) (flush f c w) := by
  have h := f.writeAll_written (w.pending ++ c.toList) w.sink
  generalize hr : f.writeAll (w.pending ++ c.toList) w.sink = r at h
  cases h with
  | all handle h =>
    rw [flush_ok hr]
    exact .done _ (by simp [Transfer.bytes])
  | cut taken rest handle handle' e hblock hrest h hw =>
    rw [flush_error hr]
    have hcut : taken ≠ [] → f.CutsOff w.sink.handle (taken ++ rest) := fun ht =>
      ⟨taken, rest, handle, rfl, ht, hrest, by rwa [← hblock], e, by rw [hw]⟩
    exact .flushFailed e _ taken rest (f.not_total hw) (congrArg some hblock) hrest hcut rfl rfl

theorem direct_ends (f : WriteFun ω ε α) (block : List α) (w : BufferedWriter ω α) :
    Ends f w (.direct block) (act f (.direct block) w) := by
  have h := f.writeAll_written (w.pending ++ (none : Option α).toList) w.sink
  generalize hr : f.writeAll (w.pending ++ (none : Option α).toList) w.sink = r at h
  change Ends f w _ ((flush f none >>= fun _ => send f block) w)
  cases h with
  | cut taken rest handle handle' e hblock hrest h hw =>
    rw [Prog.bind_of_error (flush_error hr)]
    rw [Option.toList_none, List.append_nil] at hblock h
    have hcut : taken ≠ [] → f.CutsOff w.sink.handle (taken ++ rest) := fun ht =>
      ⟨taken, rest, handle, rfl, ht, hrest, by rwa [← hblock], e, by rw [hw]⟩
    exact .flushFailed e _ taken rest (f.not_total hw) (congrArg some hblock) hrest hcut rfl rfl
  | all handle h =>
    rw [Prog.bind_of_ok (flush_ok hr)]
    rw [Option.toList_none, List.append_nil]
    have hd := f.writeAll_written block ⟨handle, w.sink.accepted ++ w.pending⟩
    generalize hrd : f.writeAll block ⟨handle, w.sink.accepted ++ w.pending⟩ = rd at hd
    cases hd with
    | all handle' hd =>
      rw [send_ok hrd]
      exact .done _ (by simp [Transfer.bytes])
    | cut taken rest handle' handle'' e hblock hrest hd hw =>
      rw [send_error hrd]
      exact .directFailed e _ taken rest (f.not_total hw) hblock hrest rfl rfl

/-- Every transfer but `drop`. -/
theorem act_ends (f : WriteFun ω ε α) (w : BufferedWriter ω α) (ha : a ≠ .drop) : Ends f w a (act f a w) := by
  cases a with
  | keep bytes =>
    refine .done _ ?_
    change w.sink.accepted ++ (w.pending ++ bytes) = _
    rw [List.append_assoc]
    rfl
  | flush c => exact flush_ends f c w
  | direct block => exact direct_ends f block w
  | drop => exact absurd rfl ha

theorem flush_sink (f : WriteFun ω ε α) (c : Option α) (w : BufferedWriter ω α) :
    (flush f c w).2.sink = (f.writeAll (w.pending ++ c.toList) w.sink).2 := by
  rcases h : f.writeAll (w.pending ++ c.toList) w.sink with ⟨e | u, sink⟩
  · rw [flush_error h]
  · rw [flush_ok h]

/-- Where nothing is pending before it, a block is sent once, now or by the next flush. -/
theorem flush_after_block (f : WriteFun ω ε α) (sink : Sink ω α) (h : a = .keep block ∨ a = .direct block) :
    (flush f none (act f a ⟨sink, []⟩).2).2.sink = (f.writeAll block sink).2 := by
  rw [flush_sink, Option.toList_none, List.append_nil]
  rcases h with rfl | rfl
  · rfl
  · have hdirect : act f (.direct block) ⟨sink, []⟩ = send f block ⟨sink, []⟩ := by
      change (flush f none >>= fun _ => send f block) _ = _
      rw [Prog.bind_of_ok (flush_empty f rfl)]
    rw [hdirect]
    change (f.writeAll [] (f.writeAll block sink).2).2 = _
    rw [WriteFun.writeAll_nil]

/-! ### Writing that never throws -/

theorem act_of_total (hf : f.Total) (ha : a ≠ .drop) (w : BufferedWriter ω α) :
    ∃ w', act f a w = (.ok (), w') ∧
      w'.sink.accepted ++ w'.pending = w.sink.accepted ++ w.pending ++ a.bytes := by
  have h := act_ends f w ha
  generalize act f a w = r at h
  cases h with
  | done w' h => exact ⟨w', rfl, h⟩
  | flushFailed e w' taken rest hthrows => exact absurd hf hthrows
  | directFailed e w' taken rest hthrows => exact absurd hf hthrows

theorem flush_of_total (hf : f.Total) (c : Option α) (w : BufferedWriter ω α) :
    ∃ w', act f (.flush c) w = (.ok (), w') ∧ w'.pending = [] ∧
      w'.sink.accepted = w.sink.accepted ++ w.pending ++ c.toList := by
  obtain ⟨handle, h⟩ := f.writeAll_of_takesAll (hf.takesAll w.sink.handle (w.pending ++ c.toList))
  refine ⟨_, flush_ok h, rfl, ?_⟩
  exact (List.append_assoc _ _ _).symm

/-! ### Writing that may throw, by a caller that goes on -/

/-- The transfer flushes what is pending, and is cut off after a part of it. -/
def Cuts (f : WriteFun ω ε α) (w : BufferedWriter ω α) (a : Transfer α) : Prop :=
  w.pending ≠ [] ∧ ∃ block, a.flushed w.pending = some block ∧ f.CutsOff w.sink.handle block

/-- If the transfer flushes what is pending, the first call throws. -/
def Refused (f : WriteFun ω ε α) (w : BufferedWriter ω α) (a : Transfer α) : Prop :=
  ∀ block, a.flushed w.pending = some block → f.Refuses w.sink.handle block

theorem Refused.not_cuts (h : Refused f w a) : ¬ Cuts f w a := by
  rintro ⟨-, block, hflushed, hcut⟩
  exact (h block hflushed).not_cutsOff hcut

/-- What has been accepted and what is pending are bytes of `put`, each of them once and in order. -/
def Intact (put : List α) (w : BufferedWriter ω α) : Prop := List.Sublist (w.sink.accepted ++ w.pending) put

/-- The same of what has been accepted, with the first of the pending bytes among it. -/
def Torn (put : List α) (w : BufferedWriter ω α) : Prop :=
  List.Sublist w.sink.accepted put ∧ ∃ c rest, w.pending = c :: rest ∧ c ∈ w.sink.accepted

variable {put : List α}

theorem Intact.accepted (h : Intact put w) : List.Sublist w.sink.accepted put :=
  (List.sublist_append_left _ _).trans h

/-- A transfer that has failed in a flush. -/
theorem flushed_short (hflushed : a.flushed w.pending = some block) (ha : w.pending = []) : block.length ≤ 1 := by
  cases a with
  | keep bytes => cases hflushed
  | flush c =>
    cases hflushed
    rw [ha]
    cases c with
    | none => exact Nat.zero_le 1
    | some c => exact Nat.le_refl 1
  | direct block =>
    cases hflushed
    rw [ha]
    exact Nat.zero_le 1
  | drop => cases hflushed

theorem flushed_prefix (hflushed : a.flushed w.pending = some block) :
    ∃ c, block = w.pending ++ c ∧ c <+: a.bytes := by
  cases a with
  | keep bytes => cases hflushed
  | flush c => exact ⟨c.toList, (Option.some.inj hflushed).symm, List.prefix_rfl⟩
  | direct block => exact ⟨[], by rw [List.append_nil]; exact (Option.some.inj hflushed).symm, List.nil_prefix⟩
  | drop => cases hflushed

theorem Intact.step (h : Intact put w) (ha : a ≠ .drop) (hcuts : ¬ Cuts f w a) :
    Intact (put ++ a.bytes) (act f a w).2 := by
  have hends := act_ends f w ha
  generalize act f a w = r at hends
  cases hends with
  | done w' hdone =>
    change List.Sublist _ _
    rw [hdone]
    exact h.append (List.Sublist.refl a.bytes)
  | flushFailed e w' taken rest hthrows hflushed hrest hcut haccepted hpending =>
    have htaken : taken = [] := by
      by_contra hne
      refine hcuts ⟨?_, taken ++ rest, hflushed, hcut hne⟩
      intro hnil
      have hlen := flushed_short hflushed hnil
      have ht := List.length_pos_iff.mpr hne
      have hr := List.length_pos_iff.mpr hrest
      rw [List.length_append] at hlen
      omega
    change List.Sublist _ _
    rw [haccepted, hpending, htaken, List.append_nil]
    exact h.trans (List.sublist_append_left _ _)
  | directFailed e w' taken rest hthrows hbytes hrest haccepted hpending =>
    change List.Sublist _ _
    rw [haccepted, hpending, List.append_nil, hbytes]
    exact h.append (List.sublist_append_left _ _)

theorem act_of_flush_error {sink : Sink ω α} (hflushed : a.flushed w.pending = some block)
    (h : f.writeAll block w.sink = (.error e, sink)) : act f a w = (.error e, ⟨sink, w.pending⟩) := by
  cases a with
  | keep bytes => cases hflushed
  | flush c =>
    cases hflushed
    exact flush_error h
  | direct block' =>
    cases hflushed
    change (flush f none >>= fun _ => send f block') w = _
    rw [Prog.bind_of_error (flush_error (c := none) (by rwa [Option.toList_none, List.append_nil]))]
  | drop => cases hflushed

theorem accepted_of_flushed (hflushed : a.flushed w.pending = some block) :
    (f.writeAll block w.sink).2.accepted <+: (act f a w).2.sink.accepted := by
  cases a with
  | keep bytes => cases hflushed
  | flush c =>
    cases hflushed
    have hsink : (flush f c w).2.sink.accepted = _ := congrArg Sink.accepted (flush_sink f c w)
    exact ⟨[], (List.append_nil _).trans hsink.symm⟩
  | direct block' =>
    cases hflushed
    change _ <+: ((flush f none >>= fun _ => send f block') w).2.sink.accepted
    have hsink := flush_sink f none w
    rw [Option.toList_none, List.append_nil] at hsink
    rw [← hsink, Prog.bind_apply]
    rcases flush f none w with ⟨e | u, w'⟩
    · exact List.prefix_rfl
    · exact f.accepted_prefix block' w'.sink
  | drop => cases hflushed

theorem act_accepted (f : WriteFun ω ε α) (a : Transfer α) (w : BufferedWriter ω α) :
    w.sink.accepted <+: (act f a w).2.sink.accepted := by
  cases hflushed : a.flushed w.pending with
  | some block => exact (f.accepted_prefix block w.sink).trans (accepted_of_flushed hflushed)
  | none =>
    cases a with
    | keep bytes => exact List.prefix_rfl
    | flush c => cases hflushed
    | direct block => cases hflushed
    | drop => exact List.prefix_rfl

/-- After a flush that has been cut off, a first part of what is pending has been accepted. -/
theorem Intact.torn (h : Intact put w) (hcuts : Cuts f w a) : Torn (put ++ a.bytes) (act f a w).2 := by
  obtain ⟨hpending, block, hflushed, hcut⟩ := hcuts
  obtain ⟨taken, rest, e, handle, hblock, htaken, hrest, hrun⟩ := hcut.writeAll
  obtain ⟨c, hc, hbytes⟩ := flushed_prefix hflushed
  rw [act_of_flush_error hflushed hrun]
  constructor
  · have hpart : List.Sublist taken (w.pending ++ a.bytes) := by
      have htb : taken <+: w.pending ++ c := ⟨rest, by rw [← hblock, hc]⟩
      exact htb.sublist.trans ((List.Sublist.refl _).append hbytes.sublist)
    have hall := (List.Sublist.refl w.sink.accepted).append hpart
    rw [← List.append_assoc] at hall
    exact hall.trans (h.append (List.Sublist.refl _))
  · obtain ⟨p, ps, hp⟩ := List.exists_cons_of_ne_nil hpending
    obtain ⟨t, ts, ht⟩ := List.exists_cons_of_ne_nil htaken
    have hhead : t = p := by
      rw [hc, hp, ht, List.cons_append, List.cons_append] at hblock
      exact (List.cons.inj hblock).1.symm
    exact ⟨p, ps, hp, by simp [ht, hhead]⟩

/-- Where nothing more is accepted, nothing is accepted twice. -/
theorem Torn.step (h : Torn put w) (ha : a ≠ .drop) (hrefused : Refused f w a) :
    Torn (put ++ a.bytes) (act f a w).2 := by
  obtain ⟨haccepted, c, rest, hpending, hc⟩ := h
  have hput : List.Sublist w.sink.accepted (put ++ a.bytes) := haccepted.trans (List.sublist_append_left _ _)
  cases hflushed : a.flushed w.pending with
  | none =>
    cases a with
    | keep bytes =>
      refine ⟨hput, c, rest ++ bytes, ?_, hc⟩
      change w.pending ++ bytes = _
      rw [hpending, List.cons_append]
    | flush c => cases hflushed
    | direct block => cases hflushed
    | drop => exact absurd rfl ha
  | some block =>
    have hb : block ≠ [] := by
      obtain ⟨c', hc', -⟩ := flushed_prefix hflushed
      rw [hc', hpending]
      exact List.cons_ne_nil _ _
    obtain ⟨e, handle, hrun⟩ := (hrefused block hflushed).writeAll (s := w.sink) hb
    rw [act_of_flush_error hflushed hrun]
    exact ⟨hput, c, rest, hpending, hc⟩

/-- A flush that is not refused sends the first of the pending bytes once more. -/
theorem Torn.repeats (h : Torn put w) (hrefused : ¬ Refused f w a) : ¬ (act f a w).2.sink.accepted.Nodup := by
  obtain ⟨haccepted, c, rest, hpending, hc⟩ := h
  obtain ⟨block, himp⟩ := not_forall.mp hrefused
  obtain ⟨hflushed, hrefuses⟩ := Classical.not_imp.mp himp
  obtain ⟨more, hmore, -⟩ := flushed_prefix hflushed
  have hblock : block = c :: (rest ++ more) := by rw [hmore, hpending, List.cons_append]
  have hb : block ≠ [] := by rw [hblock]; exact List.cons_ne_nil _ _
  obtain ⟨taken, htaken, hprefix, hsent⟩ := (f.accepts_or_refuses block w.sink hb).resolve_left hrefuses
  obtain ⟨t, ts, ht⟩ := List.exists_cons_of_ne_nil htaken
  rw [ht, hblock, List.cons_prefix_cons] at hprefix
  intro hnodup
  have hfirst : (w.sink.accepted ++ taken).Nodup := by
    rw [← hsent]
    exact hnodup.sublist (accepted_of_flushed hflushed).sublist
  rw [ht, hprefix.1] at hfirst
  exact (List.nodup_append.mp hfirst).2.2 c hc c (by simp) rfl

end BufferedWriter
