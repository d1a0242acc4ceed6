import GitCrypt.Ofhbuf

/-! A write function that never throws: what the calls on an `ofhbuf` have put is what has been
accepted and what is still in the buffer, unless the switch to unbuffered finds something there. -/
namespace GitCrypt
namespace Ofhbuf
variable {ω ε α : Type} {f : WriteFun ω ε α} {s : Ofhbuf ω α}


/-- What has been accepted and what is still in the buffer. -/
def reached (s : Ofhbuf ω α) : List α := s.sink.accepted ++ s.pending

theorem Matches.of_ok {β : Type} {b : β} {m : Call ω ε α β} {r : Except ε Unit × BufferedWriter ω α}
    {w : BufferedWriter ω α}
    (h : Matches b (m s) r) (hr : r = (.ok (), w)) : ∃ s', m s = (.ok b, s') ∧ s'.Wf ∧ s'.writer = w := by
  generalize hm : m s = r' at h
  cases h with
  | returned s' hwf =>
    cases hr
    exact ⟨s', rfl, hwf, rfl⟩
  | thrown => cases hr

theorem perform_of_total (hf : f.Total) (h : s.Wf) {op : Op α} (hop : op ≠ .unbuffered) :
    ∃ s', perform f op s = (.ok (), s') ∧ s'.Wf ∧ s'.reached = s.reached ++ op.bytes := by
  obtain ⟨w', hact, hreached⟩ := BufferedWriter.act_of_total hf (transfer_ne_drop s hop) s.writer
  obtain ⟨s', hrun, hwf, hwriter⟩ := (perform_matches (f := f) h op).of_ok hact
  subst hwriter
  refine ⟨s', hrun, hwf, ?_⟩
  rw [transfer_bytes] at hreached
  exact hreached

theorem sync_of_total (hf : f.Total) (h : s.Wf) :
    ∃ s', sync f s = (.ok 0, s') ∧ s'.sink.accepted = s.reached := by
  obtain ⟨w', hact, hpending, haccepted⟩ := BufferedWriter.flush_of_total hf none s.writer
  obtain ⟨s', hrun, hwf, hwriter⟩ := (sync_matches (f := f) h).of_ok hact
  subst hwriter
  rw [Option.toList_none, List.append_nil] at haccepted
  exact ⟨s', hrun, haccepted⟩

theorem performAll_cons (f : WriteFun ω ε α) (op : Op α) (ops : List (Op α)) :
    performAll f (op :: ops) = perform f op >>= fun _ => performAll f ops := List.forM_cons

theorem performAll_of_total (hf : f.Total) (h : s.Wf) {ops : List (Op α)} (hops : .unbuffered ∉ ops) :
    ∃ s', performAll f ops s = (.ok (), s') ∧ s'.Wf ∧ s'.reached = s.reached ++ bytesPut ops := by
  induction ops generalizing s with
  | nil => exact ⟨s, rfl, h, (List.append_nil _).symm⟩
  | cons op ops ih =>
    obtain ⟨hop, hrest⟩ := Op.buffered_cons hops
    obtain ⟨s₁, hrun₁, hwf₁, hreached₁⟩ := perform_of_total hf h hop
    obtain ⟨s₂, hrun₂, hwf₂, hreached₂⟩ := ih hwf₁ hrest
    refine ⟨s₂, ?_, hwf₂, ?_⟩
    · rw [performAll_cons, Prog.bind_of_ok hrun₁, hrun₂]
    · rw [hreached₂, hreached₁, List.append_assoc]
      rfl

private theorem destroy_of_total (hf : f.Total) (h : s.Wf) (hhandle : s.handle = true) :
    ∃ s', destroy f s = (.ok (), s') ∧ s'.sink.accepted = s.reached := by
  obtain ⟨s', hrun, haccepted⟩ := sync_of_total hf h
  have hsync : (do let _ ← sync f : Call ω ε α Unit) s = (.ok (), s') := by
    rw [Prog.bind_of_ok hrun]
    rfl
  refine ⟨s', ?_, haccepted⟩
  change ((if s.handle = true then _ else _ : Call ω ε α Unit) s) = _
  rw [if_pos hhandle]
  exact Prog.tryCatch_of_ok hsync _

/-- With a write function that never throws, every call returns, no access is outside of the buffer,
and the bytes put are at any time those accepted and then those pending. After a `sync` all of them
have been accepted, and after the destruction of a stream whose handle is not null. -/
theorem performAll_faithful (hf : f.Total) (handle : Bool) (w : ω) (cells : Nat → α) (ops : List (Op α))
    (hops : .unbuffered ∉ ops) :
    ∃ s, performAll f ops (create handle ⟨w, []⟩ cells) = (.ok (), s) ∧
      s.sink.accepted ++ s.pending = bytesPut ops ∧
      (∃ s', sync f s = (.ok 0, s') ∧ s'.sink.accepted = bytesPut ops) ∧
      (∃ s', destroy f s = (.ok (), s') ∧
        s'.sink.accepted = if handle = true then bytesPut ops else s.sink.accepted) := by
  obtain ⟨s, hrun, hwf, hreached⟩ := performAll_of_total hf (create_wf handle ⟨w, []⟩ cells) hops
  have hput : s.reached = bytesPut ops := by rw [hreached]; rfl
  have hhandle : s.handle = handle := by
    have hkept := performAll_keepsHandle f ops (create handle ⟨w, []⟩ cells)
    rw [hrun] at hkept
    exact hkept
  obtain ⟨s₁, hsync, hsynced⟩ := sync_of_total hf hwf
  refine ⟨s, hrun, hput, ⟨s₁, hsync, hsynced.trans hput⟩, ?_⟩
  cases handle with
  | true =>
    obtain ⟨s₂, hdestroy, hdestroyed⟩ := destroy_of_total hf hwf hhandle
    exact ⟨s₂, hdestroy, hdestroyed.trans hput⟩
  | false => exact ⟨s, destroy_of_null f hhandle, rfl⟩

/-- A write function that takes at most `n` bytes a call. -/
def takingUpTo (n : Nat) (hn : 1 ≤ n) : WriteFun Unit Unit α where
  write _ bytes := (.ok (min n bytes.length), ())
  takes {w bytes k w'} hb hw := by
    have hlen := List.length_pos_iff.mpr hb
    cases hw
    omega

theorem takingUpTo_total (n : Nat) (hn : 1 ≤ n) : (takingUpTo n hn : WriteFun Unit Unit α).Total :=
  fun _ bytes => ⟨min n bytes.length, rfl⟩

theorem performAll_faithful_twoBytes :
    ∃ s, performAll (takingUpTo 2 (by decide)) [.put 103, .write [105, 116], .sync]
        (create true ⟨(), []⟩ fun _ => 0) = (.ok (), s) ∧
      s.sink.accepted ++ s.pending = [103, 105, 116] ∧
      (∃ s', sync (takingUpTo 2 (by decide)) s = (.ok 0, s') ∧ s'.sink.accepted = [103, 105, 116]) ∧
      (∃ s', destroy (takingUpTo 2 (by decide)) s = (.ok (), s') ∧ s'.sink.accepted = ([103, 105, 116] : List Nat)) :=
  performAll_faithful (takingUpTo_total 2 (by decide)) true () (fun _ => 0) [.put 103, .write [105, 116], .sync]
    (by decide)

/-! ### The switch to unbuffered -/

/-- Nothing is pending whenever the calls switch to unbuffered. -/
def SwitchesEmpty (f : WriteFun ω ε α) : List (Op α) → Ofhbuf ω α → Prop
  | [], _ => True
  | op :: ops, s => (op = .unbuffered → s.pending = []) ∧ SwitchesEmpty f ops (perform f op s).2

/-- The switch forgets what is pending. -/
private theorem perform_unbuffered (f : WriteFun ω ε α) (h : s.Wf) :
    ∃ s', perform f .unbuffered s = (.ok (), s') ∧ s'.Wf ∧ s'.reached = s.sink.accepted := by
  obtain ⟨s', hrun, hwf, hwriter⟩ := (perform_matches (f := f) h .unbuffered).of_ok rfl
  refine ⟨s', hrun, hwf, ?_⟩
  have hsink : s'.sink = s.sink := congrArg BufferedWriter.sink hwriter
  have hpending : s'.pending = [] := congrArg BufferedWriter.pending hwriter
  rw [reached, hsink, hpending, List.append_nil]

/-- Either nothing is lost, or there are fewer bytes than there should be. -/
private theorem perform_reached (hf : f.Total) (h : s.Wf) (op : Op α) :
    ∃ s', perform f op s = (.ok (), s') ∧ s'.Wf ∧
      ((op = .unbuffered → s.pending = []) ∧ s'.reached = s.reached ++ op.bytes ∨
        ¬ (op = .unbuffered → s.pending = []) ∧ s'.reached.length < (s.reached ++ op.bytes).length) := by
  by_cases hop : op = .unbuffered
  · subst hop
    obtain ⟨s', hrun, hwf, hreached⟩ := perform_unbuffered f h
    refine ⟨s', hrun, hwf, ?_⟩
    have hbefore : s.reached ++ Op.bytes .unbuffered = s.sink.accepted ++ s.pending := List.append_nil _
    rw [hreached, hbefore]
    by_cases hempty : s.pending = []
    · exact Or.inl ⟨fun _ => hempty, by rw [hempty, List.append_nil]⟩
    · have hpos := List.length_pos_iff.mpr hempty
      refine Or.inr ⟨fun himp => hempty (himp rfl), ?_⟩
      rw [List.length_append]
      omega
  · obtain ⟨s', hrun, hwf, hreached⟩ := perform_of_total hf h hop
    exact ⟨s', hrun, hwf, Or.inl ⟨fun heq => absurd heq hop, hreached⟩⟩

theorem performAll_reached (hf : f.Total) (h : s.Wf) (ops : List (Op α)) :
    ∃ s', performAll f ops s = (.ok (), s') ∧ s'.Wf ∧
      (SwitchesEmpty f ops s ∧ s'.reached = s.reached ++ bytesPut ops ∨
        ¬ SwitchesEmpty f ops s ∧ s'.reached.length < (s.reached ++ bytesPut ops).length) := by
  induction ops generalizing s with
  | nil => exact ⟨s, rfl, h, Or.inl ⟨trivial, (List.append_nil _).symm⟩⟩
  | cons op ops ih =>
    obtain ⟨s₁, hrun₁, hwf₁, hreached₁⟩ := perform_reached hf h op
    obtain ⟨s₂, hrun₂, hwf₂, hreached₂⟩ := ih hwf₁
    have hnext : (perform f op s).2 = s₁ := by rw [hrun₁]
    have hbytes : s.reached ++ bytesPut (op :: ops) = s.reached ++ op.bytes ++ bytesPut ops :=
      (List.append_assoc _ _ _).symm
    refine ⟨s₂, by rw [performAll_cons, Prog.bind_of_ok hrun₁, hrun₂], hwf₂, ?_⟩
    rw [SwitchesEmpty, hnext, hbytes]
    rcases hreached₁ with ⟨hempty, hreached₁⟩ | ⟨hlost, hlength₁⟩
    · rw [← hreached₁]
      rcases hreached₂ with ⟨hrest, hreached₂⟩ | ⟨hlost, hlength₂⟩
      · exact Or.inl ⟨⟨hempty, hrest⟩, hreached₂⟩
      · exact Or.inr ⟨fun hall => hlost hall.2, hlength₂⟩
    · refine Or.inr ⟨fun hall => hlost hall.1, ?_⟩
      have hlength₂ : s₂.reached.length ≤ (s₁.reached ++ bytesPut ops).length := by
        rcases hreached₂ with ⟨-, hreached₂⟩ | ⟨-, hlength₂⟩
        · exact Nat.le_of_eq (congrArg List.length hreached₂)
        · exact Nat.le_of_lt hlength₂
      rw [List.length_append] at hlength₂ ⊢
      omega

/-- With a write function that never throws, a `sync` after any calls leaves all the bytes put
accepted, in order, just when nothing was pending at each switch to unbuffered. -/
theorem performAll_sync_complete_iff (hf : f.Total) (handle : Bool) (w : ω) (cells : Nat → α) (ops : List (Op α)) :
    ∃ s, (performAll f ops >>= fun _ => sync f) (create handle ⟨w, []⟩ cells) = (.ok 0, s) ∧
      (s.sink.accepted = bytesPut ops ↔ SwitchesEmpty f ops (create handle ⟨w, []⟩ cells)) := by
  obtain ⟨s, hrun, hwf, hreached⟩ := performAll_reached hf (create_wf handle ⟨w, []⟩ cells) ops
  obtain ⟨s', hsync, haccepted⟩ := sync_of_total hf hwf
  refine ⟨s', by rw [Prog.bind_of_ok hrun, hsync], ?_⟩
  have hput : (create handle ⟨w, []⟩ cells).reached ++ bytesPut ops = bytesPut ops := rfl
  rw [hput] at hreached
  rw [haccepted]
  constructor
  · intro hall
    rcases hreached with ⟨hempty, -⟩ | ⟨-, hlength⟩
    · exact hempty
    · rw [hall] at hlength
      exact absurd hlength (Nat.lt_irrefl _)
  · intro hempty
    rcases hreached with ⟨-, hreached⟩ | ⟨hlost, -⟩
    · exact hreached
    · exact absurd hempty hlost

theorem performAll_sync_complete_iff_switched :
    ∃ s, (performAll (takingUpTo 2 (by decide)) [.write [103, 105], .sync, .unbuffered, .put 116] >>= fun _ =>
        sync (takingUpTo 2 (by decide))) (create true ⟨(), []⟩ fun _ => 0) = (.ok 0, s) ∧
      (s.sink.accepted = ([103, 105, 116] : List Nat) ↔ SwitchesEmpty (takingUpTo 2 (by decide))
        [.write [103, 105], .sync, .unbuffered, .put 116] (create true ⟨(), []⟩ fun _ => 0)) :=
  performAll_sync_complete_iff (takingUpTo_total 2 (by decide)) true () (fun _ => 0)
    [.write [103, 105], .sync, .unbuffered, .put 116]

/-- A byte that is pending at the switch is never accepted. -/
theorem setbuf_loses_pending :
    ∃ s, (performAll (takingUpTo 2 (by decide)) [.put 103, .unbuffered, .put 105] >>= fun _ =>
        sync (takingUpTo 2 (by decide))) (create true ⟨(), []⟩ fun _ => 0) = (.ok 0, s) ∧
      s.sink.accepted = ([105] : List Nat) ∧
      bytesPut [.put 103, .unbuffered, .put 105] = ([103, 105] : List Nat) := by
  have hf : (takingUpTo 2 (by decide) : WriteFun Unit Unit Nat).Total := takingUpTo_total 2 (by decide)
  obtain ⟨s, hrun, hwf, -⟩ := performAll_reached hf (create_wf true ⟨(), []⟩ fun _ => 0)
    [.put 103, .unbuffered, .put 105]
  obtain ⟨s', hsync, haccepted⟩ := sync_of_total hf hwf
  have hs : (performAll (takingUpTo 2 (by decide)) [.put 103, .unbuffered, .put 105]
      (create true ⟨(), []⟩ fun _ => 0)).2 = s := by
    rw [hrun]
  refine ⟨s', by rw [Prog.bind_of_ok hrun, hsync], ?_, rfl⟩
  rw [haccepted, ← hs]
  rfl

end Ofhbuf
end GitCrypt
