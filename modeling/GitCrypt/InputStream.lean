import GitCrypt.Ifhbuf

/-! A read function that never throws: what the calls on an `ifhbuf` deliver is the source, byte by
byte, and they fall short only at its end. -/
namespace GitCrypt
namespace Ifhbuf
variable {ω ε α : Type} {f : ReadFun ω ε α} {s : Ifhbuf ω α}

theorem perform_of_total (hf : f.Total) (h : s.Wf) (op : Op) :
    ∃ bytes s', perform f op s = (.ok bytes, s') ∧ Delivers s s' bytes := by
  have hperformed := perform_performed f op h
  generalize perform f op s = r at hperformed
  cases hperformed with
  | done bytes s' hdelivers => exact ⟨bytes, s', rfl, hdelivers⟩
  | threw e s' hwf hthrows => exact absurd hf hthrows

theorem performAll_of_total (hf : f.Total) (h : s.Wf) (ops : List Op) :
    ∃ bytes s', performAll f ops s = (.ok bytes, s') ∧ Delivers s s' bytes := by
  induction ops generalizing s with
  | nil => exact ⟨[], s, rfl, .refl h⟩
  | cons op ops ih =>
    obtain ⟨bytes, s₁, hrun₁, hdelivers₁⟩ := perform_of_total hf h op
    obtain ⟨more, s₂, hrun₂, hdelivers₂⟩ := ih hdelivers₁.wf
    refine ⟨bytes ++ more, s₂, ?_, hdelivers₁.trans hdelivers₂⟩
    change (perform f op >>= fun bytes => performAll f ops >>= fun more => pure (bytes ++ more)) s = _
    rw [Prog.bind_of_ok hrun₁, Prog.bind_of_ok hrun₂]
    rfl

private theorem sgetc_of_total (hf : f.Total) (h : s.Wf) : ∃ s', sgetc f s = (.ok s.ahead.head?, s') := by
  have hpeeked := sgetc_peeked f h
  generalize sgetc f s = r at hpeeked
  cases hpeeked with
  | char c s' hready =>
    refine ⟨s', ?_⟩
    rw [← hready.ahead, ahead, available_cons hready.left, hready.next]
    rfl
  | eof s' hended hat hrest =>
    refine ⟨s', ?_⟩
    rw [← hended.ahead, hrest]
    rfl
  | threw e s' hended hat hthrows => exact absurd hf hthrows

private theorem sbumpc_of_total (hf : f.Total) (h : s.Wf) : ∃ s', sbumpc f s = (.ok s.ahead.head?, s') := by
  have hbumped := sbumpc_bumped f h
  generalize sbumpc f s = r at hbumped
  cases hbumped with
  | char c s' hdelivers =>
    refine ⟨s', ?_⟩
    rw [hdelivers.ahead]
    rfl
  | eof s' hended hat hrest =>
    refine ⟨s', ?_⟩
    rw [← hended.ahead, hrest]
    rfl
  | threw e s' hended hat hthrows => exact absurd hf hthrows

private theorem xsgetn_of_total (hf : f.Total) (h : s.Wf) (n : Nat) :
    ∃ bytes s', xsgetn f n s = (.ok bytes, s') ∧ Delivers s s' bytes ∧ bytes.length ≤ n ∧
      (bytes.length < n → s'.ahead = []) := by
  have hgot := xsgetn_got f n h
  generalize xsgetn f n s = r at hgot
  cases hgot with
  | done bytes s' hdelivers hlen hshort => exact ⟨bytes, s', rfl, hdelivers, hlen, hshort⟩
  | threw e s' hwf hthrows => exact absurd hf hthrows

/-- With a read function that never throws, every call returns and no access is outside of the buffer.
What the calls have delivered is at any time a first part of the source; a peek and a single-character
read see the byte after it, and a block read falls short only when the whole source has been
delivered. -/
theorem performAll_delivers_prefix (hf : f.Total) (w : ω) (bytes : List α) (cells : Nat → α) (ops : List Op) :
    ∃ done rest s, performAll f ops (create ⟨w, bytes⟩ cells) = (.ok done, s) ∧ bytes = done ++ rest ∧
      (∃ s', sgetc f s = (.ok rest.head?, s')) ∧ (∃ s', sbumpc f s = (.ok rest.head?, s')) ∧
      ∀ n, ∃ got more s', xsgetn f n s = (.ok got, s') ∧ rest = got ++ more ∧ got.length ≤ n ∧
        (got.length < n → more = []) := by
  obtain ⟨done, s, hrun, hdelivers⟩ := performAll_of_total hf (create_wf ⟨w, bytes⟩ cells) ops
  refine ⟨done, s.ahead, s, hrun, hdelivers.ahead, ?_, ?_, ?_⟩
  · exact sgetc_of_total hf hdelivers.wf
  · exact sbumpc_of_total hf hdelivers.wf
  · intro n
    obtain ⟨got, s', hget, hmore, hlen, hshort⟩ := xsgetn_of_total hf hdelivers.wf n
    exact ⟨got, s'.ahead, s', hget, hmore.ahead, hlen, hshort⟩

/-- A read function that gives at most `n` bytes a call. -/
def givingUpTo (limit : Nat) (hlimit : 1 ≤ limit) : ReadFun Unit Unit α where
  read _ n rest := (.ok (min limit (min n rest.length)), ())
  gives {w n rest k w'} hn hrest hr := by
    have hlen := List.length_pos_iff.mpr hrest
    cases hr
    omega

private theorem givingUpTo_total (limit : Nat) (hlimit : 1 ≤ limit) :
    (givingUpTo limit hlimit : ReadFun Unit Unit α).Total :=
  fun _ n rest => ⟨min limit (min n rest.length), rfl⟩

theorem performAll_delivers_prefix_chunks :
    ∃ done rest s, performAll (givingUpTo 2 (by decide)) [.peek, .read 3, .unbuffered, .get]
        (create ⟨(), [103, 105, 116, 45, 99]⟩ fun _ => (0 : Nat)) = (.ok done, s) ∧
      [103, 105, 116, 45, 99] = done ++ rest ∧
      (∃ s', sgetc (givingUpTo 2 (by decide)) s = (.ok rest.head?, s')) ∧
      (∃ s', sbumpc (givingUpTo 2 (by decide)) s = (.ok rest.head?, s')) ∧
      ∀ n, ∃ got more s', xsgetn (givingUpTo 2 (by decide)) n s = (.ok got, s') ∧ rest = got ++ more ∧
        got.length ≤ n ∧ (got.length < n → more = []) :=
  performAll_delivers_prefix (givingUpTo_total 2 (by decide)) () [103, 105, 116, 45, 99] (fun _ => 0)
    [.peek, .read 3, .unbuffered, .get]

end Ifhbuf
end GitCrypt
