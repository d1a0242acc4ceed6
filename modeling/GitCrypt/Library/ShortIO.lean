import GitCrypt.Library.Hoare

/-! Transfers that may be short. A writing call takes a first part of what it is given and a
reading call gives a first part of what is left; a loop repeats the call. -/

/-- A writing call on an outside state `ω`: it takes some of the bytes, at least one where there is
one, or it throws and takes none. -/
structure WriteFun (ω ε α : Type) where
  write : ω → List α → Except ε Nat × ω
  takes : ∀ {w bytes k w'}, bytes ≠ [] → write w bytes = (.ok k, w') → 1 ≤ k ∧ k ≤ bytes.length

/-- What the calls write to, with all the bytes that it has accepted. -/
structure Sink (ω α : Type) where
  handle : ω
  accepted : List α

namespace WriteFun
variable {ω ε α : Type}

/-- The call never throws. -/
def Total (f : WriteFun ω ε α) : Prop := ∀ w bytes, ∃ k, (f.write w bytes).1 = .ok k

/-- `while (n > 0)` write the rest of the block. -/
def writeAll (f : WriteFun ω ε α) (block : List α) (s : Sink ω α) : Except ε Unit × Sink ω α :=
  if _hb : block = [] then (.ok (), s)
  else
    match _hw : f.write s.handle block with
    | (.error e, w) => (.error e, ⟨w, s.accepted⟩)
    | (.ok k, w) => writeAll f (block.drop k) ⟨w, s.accepted ++ block.take k⟩
termination_by block.length
decreasing_by
  have := f.takes _hb _hw
  rw [List.length_drop]
  omega

/-- One call after the other, `taken` is taken off the front of the block. -/
inductive Takes (f : WriteFun ω ε α) : ω → List α → List α → ω → Prop where
  | none (w : ω) (block : List α) : Takes f w block [] w
  | call {w w' w'' : ω} {block taken : List α} {k : Nat} (hb : block ≠ []) (hw : f.write w block = (.ok k, w'))
      (rest : Takes f w' (block.drop k) taken w'') : Takes f w block (block.take k ++ taken) w''

/-- The calls take the whole block. -/
def TakesAll (f : WriteFun ω ε α) (w : ω) (block : List α) : Prop := ∃ w', f.Takes w block block w'

/-- The first call on the block throws. -/
def Refuses (f : WriteFun ω ε α) (w : ω) (block : List α) : Prop := ∃ e, (f.write w block).1 = .error e

/-- The calls take a part of the block, and then one throws. -/
def CutsOff (f : WriteFun ω ε α) (w : ω) (block : List α) : Prop :=
  ∃ taken rest w', block = taken ++ rest ∧ taken ≠ [] ∧ rest ≠ [] ∧ f.Takes w block taken w' ∧ f.Refuses w' rest

/-- How a loop of calls ends: with the whole block taken, or with an exception from a call on what
is left. -/
inductive Written (f : WriteFun ω ε α) (block : List α) (s : Sink ω α) : Except ε Unit × Sink ω α → Prop where
  | all (w' : ω) (h : f.Takes s.handle block block w') : Written f block s (.ok (), ⟨w', s.accepted ++ block⟩)
  | cut (taken rest : List α) (w' w'' : ω) (e : ε) (hb : block = taken ++ rest) (hrest : rest ≠ [])
      (h : f.Takes s.handle block taken w') (hw : f.write w' rest = (.error e, w'')) :
      Written f block s (.error e, ⟨w'', s.accepted ++ taken⟩)

variable {f : WriteFun ω ε α} {s : Sink ω α} {block taken rest : List α} {w w' w'' : ω} {e : ε} {k : Nat}

@[simp] theorem writeAll_nil : f.writeAll [] s = (.ok (), s) := by
  rw [writeAll, dif_pos rfl]

theorem writeAll_of_error (hb : block ≠ []) (hw : f.write s.handle block = (.error e, w)) :
    f.writeAll block s = (.error e, ⟨w, s.accepted⟩) := by
  rw [writeAll, dif_neg hb]
  split
  · rename_i hw'
    rw [hw] at hw'
    cases hw'
    rfl
  · rename_i hw'
    rw [hw] at hw'
    cases hw'

theorem writeAll_of_ok (hb : block ≠ []) (hw : f.write s.handle block = (.ok k, w)) :
    f.writeAll block s = f.writeAll (block.drop k) ⟨w, s.accepted ++ block.take k⟩ := by
  rw [writeAll, dif_neg hb]
  split
  · rename_i hw'
    rw [hw] at hw'
    cases hw'
  · rename_i hw'
    rw [hw] at hw'
    cases hw'
    rfl

/-- One more call in front. -/
theorem Written.call {r : Except ε Unit × Sink ω α} (hb : block ≠ []) (hw : f.write s.handle block = (.ok k, w))
    (h : f.Written (block.drop k) ⟨w, s.accepted ++ block.take k⟩ r) : f.Written block s r := by
  cases h with
  | all w' h =>
    have hall := Takes.call hb hw h
    rw [List.take_append_drop] at hall
    simp only [List.append_assoc, List.take_append_drop]
    exact .all w' hall
  | cut taken rest w' w'' e hrest hne h hw' =>
    rw [List.append_assoc]
    refine .cut (block.take k ++ taken) rest w' w'' e ?_ hne (.call hb hw h) hw'
    rw [List.append_assoc, ← hrest, List.take_append_drop]

theorem writeAll_written (f : WriteFun ω ε α) (block : List α) (s : Sink ω α) :
    f.Written block s (f.writeAll block s) := by
  induction hn : block.length using Nat.strongRecOn generalizing block s with
  | ind n ih =>
    by_cases hb : block = []
    · subst hb
      rw [writeAll_nil]
      have h := Written.all (f := f) (s := s) s.handle (.none s.handle [])
      rwa [List.append_nil] at h
    · rcases hw : f.write s.handle block with ⟨e | k, w⟩
      · rw [writeAll_of_error hb hw]
        have h := Written.cut (f := f) (s := s) [] block s.handle w e rfl hb (.none s.handle block) hw
        rwa [List.append_nil] at h
      · rw [writeAll_of_ok hb hw]
        have hk := f.takes hb hw
        have hlen : (block.drop k).length < n := by rw [List.length_drop]; omega
        exact .call hb hw (ih _ hlen _ _ rfl)

/-- After calls that have taken a part, the loop goes on with the rest. -/
theorem Takes.writeAll (h : f.Takes w block taken w') (accepted : List α) :
    f.writeAll block ⟨w, accepted⟩ = f.writeAll (block.drop taken.length) ⟨w', accepted ++ taken⟩ := by
  induction h generalizing accepted with
  | none w block => rw [List.length_nil, List.drop_zero, List.append_nil]
  | @call w w' w'' block taken k hb hw rest ih =>
    have hk := f.takes hb hw
    have hlen : (block.take k ++ taken).length = k + taken.length := by
      rw [List.length_append, List.length_take, Nat.min_eq_left hk.2]
    rw [writeAll_of_ok hb hw, ih, List.drop_drop, hlen, List.append_assoc]

/-- The loop returns just when the calls take the whole block. -/
theorem writeAll_ok_iff : (f.writeAll block s).1 = .ok () ↔ f.TakesAll s.handle block := by
  constructor
  · intro hok
    generalize hr : f.writeAll block s = r at hok
    have hwritten := writeAll_written f block s
    rw [hr] at hwritten
    cases hwritten with
    | all w' h => exact ⟨w', h⟩
    | cut => cases hok
  · rintro ⟨w', h⟩
    have hrest := h.writeAll s.accepted
    rw [List.drop_length, writeAll_nil] at hrest
    rw [hrest]

theorem writeAll_of_takesAll (h : f.TakesAll s.handle block) :
    ∃ w', f.writeAll block s = (.ok (), ⟨w', s.accepted ++ block⟩) := by
  obtain ⟨w', h⟩ := h
  have hrest := h.writeAll s.accepted
  rw [List.drop_length, writeAll_nil] at hrest
  exact ⟨w', hrest⟩

theorem accepted_all_iff : (f.writeAll block ⟨w, []⟩).2.accepted = block ↔ f.TakesAll w block := by
  rw [← writeAll_ok_iff (s := ⟨w, []⟩)]
  have h := writeAll_written f block ⟨w, []⟩
  generalize f.writeAll block ⟨w, []⟩ = r at h
  cases h with
  | all w' h => exact iff_of_true rfl rfl
  | cut taken rest w' w'' e hb hrest h hw =>
    refine iff_of_false (fun hall => hrest ?_) nofun
    change taken = block at hall
    rw [hb] at hall
    exact List.self_eq_append_right.mp hall

theorem not_total (h : f.write w block = (.error e, w')) : ¬ f.Total := by
  intro hf
  obtain ⟨k, hk⟩ := hf w block
  rw [h] at hk
  cases hk

theorem Total.takesAll (hf : f.Total) (w : ω) (block : List α) : f.TakesAll w block := by
  have h := writeAll_written f block ⟨w, []⟩
  generalize f.writeAll block ⟨w, []⟩ = r at h
  cases h with
  | all w' h => exact ⟨w', h⟩
  | cut taken rest w' w'' e hb hrest h hw => exact absurd hf (not_total hw)

theorem Refuses.writeAll (h : f.Refuses s.handle block) (hb : block ≠ []) :
    ∃ e w, f.writeAll block s = (.error e, ⟨w, s.accepted⟩) := by
  obtain ⟨e, he⟩ := h
  rcases hw : f.write s.handle block with ⟨e' | k, w⟩ <;> rw [hw] at he
  · exact ⟨e', w, writeAll_of_error hb hw⟩
  · cases he

theorem CutsOff.writeAll (h : f.CutsOff s.handle block) :
    ∃ taken rest e w, block = taken ++ rest ∧ taken ≠ [] ∧ rest ≠ [] ∧
      f.writeAll block s = (.error e, ⟨w, s.accepted ++ taken⟩) := by
  obtain ⟨taken, rest, w', hb, htaken, hrest, h, hrefuses⟩ := h
  obtain ⟨e, w, hrun⟩ := hrefuses.writeAll (s := ⟨w', s.accepted ++ taken⟩) hrest
  have hpart := h.writeAll s.accepted
  rw [hb, List.drop_left, hrun] at hpart
  exact ⟨taken, rest, e, w, hb, htaken, hrest, by rw [hb]; exact hpart⟩

theorem accepted_prefix (f : WriteFun ω ε α) (block : List α) (s : Sink ω α) :
    s.accepted <+: (f.writeAll block s).2.accepted := by
  have h := writeAll_written f block s
  generalize f.writeAll block s = r at h
  cases h with
  | all => exact List.prefix_append _ _
  | cut => exact List.prefix_append _ _

/-- Calls on a block that is not empty take something, or the first one throws. -/
theorem accepts_or_refuses (f : WriteFun ω ε α) (block : List α) (s : Sink ω α) (hb : block ≠ []) :
    f.Refuses s.handle block ∨ ∃ taken, taken ≠ [] ∧ taken <+: block ∧
      (f.writeAll block s).2.accepted = s.accepted ++ taken := by
  have h := writeAll_written f block s
  generalize f.writeAll block s = r at h
  cases h with
  | all w' h => exact Or.inr ⟨block, hb, List.prefix_rfl, rfl⟩
  | cut taken rest w' w'' e hblock hrest h hw =>
    cases h with
    | none =>
      left
      rw [hblock]
      exact ⟨e, by rw [List.nil_append, hw]⟩
    | @call _ w₁ _ _ taken k _ hk _ =>
      have hpos := f.takes hb hk
      refine Or.inr ⟨_, ?_, ⟨rest, hblock.symm⟩, rfl⟩
      intro hnil
      have hzero := congrArg List.length hnil
      rw [List.length_append, List.length_take, List.length_nil] at hzero
      omega

theorem cutsOff_iff : f.CutsOff w block ↔
    (∃ e, (f.writeAll block ⟨w, []⟩).1 = .error e) ∧ (f.writeAll block ⟨w, []⟩).2.accepted ≠ [] := by
  constructor
  · intro hcut
    obtain ⟨taken, rest, e, handle, hblock, htaken, hrest, hrun⟩ := hcut.writeAll (s := ⟨w, []⟩)
    rw [hrun]
    exact ⟨⟨e, rfl⟩, htaken⟩
  · rintro ⟨⟨e, he⟩, htaken⟩
    have h := writeAll_written f block ⟨w, []⟩
    generalize f.writeAll block ⟨w, []⟩ = r at h he htaken
    cases h with
    | all => cases he
    | cut taken rest w' w'' e hblock hrest h hw =>
      exact ⟨taken, rest, w', hblock, htaken, hrest, h, e, by rw [hw]⟩

theorem Refuses.not_cutsOff (h : f.Refuses w block) : ¬ f.CutsOff w block := by
  intro hcut
  have htaken := (cutsOff_iff.mp hcut).2
  by_cases hb : block = []
  · rw [hb, writeAll_nil] at htaken
    exact htaken rfl
  · obtain ⟨e, handle, hrun⟩ := h.writeAll (s := ⟨w, []⟩) hb
    rw [hrun] at htaken
    exact htaken rfl

/-! ### A call that sees less of the bytes -/

section comap
variable {β : Type}

/-- The call on bytes of which it sees `g` alone. -/
def comap (g : β → α) (f : WriteFun ω ε α) : WriteFun ω ε β where
  write w bytes := f.write w (bytes.map g)
  takes hb hw := by
    have hk := f.takes (by rwa [Ne, List.map_eq_nil_iff]) hw
    rwa [List.length_map] at hk

end comap

end WriteFun

def Sink.map {ω α β : Type} (g : β → α) (s : Sink ω β) : Sink ω α := ⟨s.handle, s.accepted.map g⟩

namespace WriteFun
variable {ω ε α β : Type}

theorem writeAll_comap (g : β → α) (f : WriteFun ω ε α) (block : List β) (s : Sink ω β) :
    f.writeAll (block.map g) (s.map g) =
      (((f.comap g).writeAll block s).1, ((f.comap g).writeAll block s).2.map g) := by
  induction hn : block.length using Nat.strongRecOn generalizing block s with
  | ind n ih =>
    by_cases hb : block = []
    · subst hb
      rw [List.map_nil, writeAll_nil, writeAll_nil]
    · have hmap : block.map g ≠ [] := by rwa [Ne, List.map_eq_nil_iff]
      rcases hw : f.write s.handle (block.map g) with ⟨e | k, w⟩
      · rw [writeAll_of_error hmap hw, writeAll_of_error (f := f.comap g) hb hw]
        rfl
      · have hk := (f.comap g).takes hb hw
        have hlen : (block.drop k).length < n := by rw [List.length_drop]; omega
        have hrest := ih _ hlen (block.drop k) ⟨w, s.accepted ++ block.take k⟩ rfl
        rw [writeAll_of_ok hmap hw, writeAll_of_ok (f := f.comap g) hb hw, ← hrest, List.map_drop]
        simp only [Sink.map, List.map_append, List.map_take]

theorem cutsOff_comap (g : β → α) (f : WriteFun ω ε α) (w : ω) (block : List β) :
    (f.comap g).CutsOff w block ↔ f.CutsOff w (block.map g) := by
  have h := writeAll_comap g f block ⟨w, []⟩
  change f.writeAll (block.map g) ⟨w, []⟩ = _ at h
  rw [cutsOff_iff, cutsOff_iff, h]
  simp only [Sink.map, ne_eq, List.map_eq_nil_iff]

end WriteFun

/-! ### Reading -/

/-- A reading call on an outside state `ω`, for up to `n` bytes, before `rest` of the source: it gives
some of them, at least one where there is one, or it throws and gives none. -/
structure ReadFun (ω ε α : Type) where
  read : ω → Nat → List α → Except ε Nat × ω
  gives : ∀ {w n rest k w'}, 1 ≤ n → rest ≠ [] → read w n rest = (.ok k, w') → 1 ≤ k ∧ k ≤ n

/-- What the calls read from, with the bytes that it has not given yet. -/
structure Source (ω α : Type) where
  handle : ω
  rest : List α

namespace ReadFun
variable {ω ε α : Type}

/-- The call never throws. -/
def Total (f : ReadFun ω ε α) : Prop := ∀ w n rest, ∃ k, (f.read w n rest).1 = .ok k

def call (f : ReadFun ω ε α) (n : Nat) : Prog (Source ω α) ε (List α) := fun s =>
  match f.read s.handle n s.rest with
  | (.error e, w) => (.error e, ⟨w, s.rest⟩)
  | (.ok k, w) => (.ok (s.rest.take k), ⟨w, s.rest.drop k⟩)

/-- How a call for up to `n` bytes ends: with some bytes, at the end of the source, or with an
exception. -/
inductive Given (f : ReadFun ω ε α) (n : Nat) (s : Source ω α) : Except ε (List α) × Source ω α → Prop where
  | some (bytes rest : List α) (w : ω) (hbytes : bytes ≠ []) (hlen : bytes.length ≤ n)
      (hrest : s.rest = bytes ++ rest) : Given f n s (.ok bytes, ⟨w, rest⟩)
  | nothing (w : ω) (hrest : s.rest = []) : Given f n s (.ok [], ⟨w, []⟩)
  | threw (e : ε) (w : ω) (h : ¬ f.Total) : Given f n s (.error e, ⟨w, s.rest⟩)

variable {f : ReadFun ω ε α} {n : Nat} {s : Source ω α}

theorem call_given (f : ReadFun ω ε α) (s : Source ω α) (hn : 1 ≤ n) : f.Given n s (f.call n s) := by
  unfold call
  rcases hr : f.read s.handle n s.rest with ⟨e | k, w⟩
  · refine .threw e w fun hf => ?_
    obtain ⟨k, hk⟩ := hf s.handle n s.rest
    rw [hr] at hk
    cases hk
  · by_cases hrest : s.rest = []
    · have h := Given.nothing (f := f) (n := n) w hrest
      simp only [hrest, List.take_nil, List.drop_nil]
      exact h
    · have hk := f.gives hn hrest hr
      have hpos := List.length_pos_iff.mpr hrest
      refine .some (s.rest.take k) (s.rest.drop k) w ?_ ?_ (List.take_append_drop k s.rest).symm
      · rw [← List.length_pos_iff, List.length_take]
        omega
      · rw [List.length_take]
        omega

/-- `while (n > 0)` read up to `n` bytes more, until there are none. -/
def readLoop (f : ReadFun ω ε α) (n : Nat) (s : Source ω α) : Except ε (List α) × Source ω α :=
  if n = 0 then (.ok [], s)
  else
    match f.call n s with
    | (.error e, s') => (.error e, s')
    | (.ok bytes, s') =>
      if _hb : bytes = [] then (.ok [], s')
      else
        match readLoop f (n - bytes.length) s' with
        | (.error e, s'') => (.error e, s'')
        | (.ok more, s'') => (.ok (bytes ++ more), s'')
termination_by n
decreasing_by
  have := List.length_pos_iff.mpr _hb
  omega

/-- How the loop for `n` bytes ends: with `n` bytes, with fewer at the end of the source, or with an
exception. -/
inductive Looped (f : ReadFun ω ε α) (n : Nat) (s : Source ω α) : Except ε (List α) × Source ω α → Prop where
  | done (bytes : List α) (s' : Source ω α) (hrest : s.rest = bytes ++ s'.rest) (hlen : bytes.length ≤ n)
      (hshort : bytes.length < n → s'.rest = []) : Looped f n s (.ok bytes, s')
  | threw (e : ε) (s' : Source ω α) (h : ¬ f.Total) : Looped f n s (.error e, s')

theorem readLoop_looped (f : ReadFun ω ε α) (n : Nat) (s : Source ω α) : f.Looped n s (f.readLoop n s) := by
  induction n using Nat.strongRecOn generalizing s with
  | ind n ih =>
    rw [readLoop]
    by_cases hn : n = 0
    · rw [if_pos hn]
      exact .done [] s rfl (Nat.zero_le n) fun h => absurd h (by rw [hn]; exact Nat.not_lt_zero _)
    · rw [if_neg hn]
      have hgiven := call_given f s (Nat.one_le_iff_ne_zero.mpr hn)
      generalize f.call n s = r at hgiven
      cases hgiven with
      | threw e w h => exact .threw e _ h
      | nothing w hrest =>
        dsimp only
        rw [dif_pos rfl]
        exact .done [] _ hrest (Nat.zero_le n) fun _ => rfl
      | some bytes rest w hbytes hlen hrest =>
        have hpos := List.length_pos_iff.mpr hbytes
        have hmore := ih (n - bytes.length) (by omega) ⟨w, rest⟩
        dsimp only
        rw [dif_neg hbytes]
        generalize f.readLoop (n - bytes.length) ⟨w, rest⟩ = r at hmore
        cases hmore with
        | threw e s' h => exact .threw e s' h
        | done more s' hrest' hlen' hshort =>
          refine .done (bytes ++ more) s' ?_ ?_ ?_
          · rw [hrest, List.append_assoc, ← hrest']
          · rw [List.length_append]
            omega
          · rw [List.length_append]
            intro h
            exact hshort (by omega)

end ReadFun
