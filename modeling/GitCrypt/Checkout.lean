import GitCrypt.Git

/-! The batches in which `git_checkout` passes its paths to git: they are the whole list, and it stops
at the first that fails. -/
namespace GitCrypt
variable {paths : List Bytes}

/-- The paths one after the other in as few batches as their size allows, none of them empty. -/
structure InBatches (paths : List Bytes) (batches : List (List Bytes)) : Prop where
  flatten : batches.flatten = paths
  size : ∀ batch ∈ batches, 1 ≤ batch.length ∧ batch.length ≤ gitCheckoutBatchSize
  number : batches.length = (paths.length + (gitCheckoutBatchSize - 1)) / gitCheckoutBatchSize

namespace InBatches

theorem nil : InBatches [] [] := ⟨rfl, List.forall_mem_nil _, by decide⟩

theorem single (hne : paths ≠ []) (hlength : paths.length < gitCheckoutBatchSize) : InBatches paths [paths] := by
  have hpos := List.length_pos_iff.mpr hne
  refine ⟨List.append_nil paths, List.forall_mem_singleton.mpr ⟨hpos, Nat.le_of_lt hlength⟩, ?_⟩
  unfold gitCheckoutBatchSize at hlength ⊢
  rw [List.length_singleton]
  omega

theorem cons {batches : List (List Bytes)} (hlength : gitCheckoutBatchSize ≤ paths.length)
    (h : InBatches (paths.drop gitCheckoutBatchSize) batches) :
    InBatches paths (paths.take gitCheckoutBatchSize :: batches) := by
  have hfirst : (paths.take gitCheckoutBatchSize).length = gitCheckoutBatchSize := List.length_take_of_le hlength
  refine ⟨?_, List.forall_mem_cons.mpr ⟨?_, h.size⟩, ?_⟩
  · rw [List.flatten_cons, h.flatten, List.take_append_drop]
  · rw [hfirst]
    exact ⟨by decide, Nat.le_refl _⟩
  · have hnumber := h.number
    rw [List.length_drop] at hnumber
    unfold gitCheckoutBatchSize at hlength hnumber ⊢
    rw [List.length_cons, hnumber]
    omega

end InBatches

/-- The commands of a run over the batches, and whether it gets to their end. -/
inductive RanBatches : List (List Bytes) → List Event → Bool → Prop where
  | done : RanBatches [] [] true
  | failed (batch : List Bytes) (later : List (List Bytes)) (status : Nat) (hstatus : status ≠ 0) :
      RanBatches (batch :: later) [.ran (.gitCheckout batch) status] false
  | next (batch : List Bytes) {batches : List (List Bytes)} {events : List Event} {ok : Bool}
      (h : RanBatches batches events ok) :
      RanBatches (batch :: batches) (.ran (.gitCheckout batch) 0 :: events) ok

variable {batches : List (List Bytes)} {events : List Event}

/-- The commands that check out these batches. -/
def checkouts (batches : List (List Bytes)) : List Event := batches.map fun batch => .ran (.gitCheckout batch) 0

theorem RanBatches.all (h : RanBatches batches events true) : events = checkouts batches := by
  generalize hok : true = ok at h
  induction h with
  | done => rfl
  | failed => cases hok
  | next batch _ ih =>
    rw [ih hok]
    rfl

theorem RanBatches.stopped (h : RanBatches batches events false) :
    ∃ before batch later status, batches = before ++ batch :: later ∧ status ≠ 0 ∧
      events = checkouts before ++ [.ran (.gitCheckout batch) status] := by
  generalize hok : false = ok at h
  induction h with
  | done => cases hok
  | failed batch later status hstatus => exact ⟨[], batch, later, status, rfl, hstatus, rfl⟩
  | next first _ ih =>
    obtain ⟨before, batch, later, status, hbatches, hstatus, hevents⟩ := ih hok
    refine ⟨first :: before, batch, later, status, ?_, hstatus, ?_⟩
    · rw [hbatches]
      rfl
    · rw [hevents]
      rfl

/-- A batch that is not empty is one command. -/
theorem gitCheckoutBatch_run (env : Env) (hne : paths ≠ []) (w : World) :
    ∃ status, gitCheckoutBatch env paths w =
      (.ok (successfulExit status), w.note (.ran (.gitCheckout paths) status)) := by
  have hrun : gitCheckoutBatch env paths w =
      (execCommand env (.gitCheckout paths) >>= fun out => pure (successfulExit out.1)) w := by
    rw [gitCheckoutBatch, if_neg hne]
  have hexec : ∃ status, execCommand env (.gitCheckout paths) w =
      (.ok (status, []), w.note (.ran (.gitCheckout paths) status)) := by
    unfold execCommand
    by_cases hfails : env.fails w.ops = true
    · exact ⟨128, if_pos hfails⟩
    · exact ⟨0, if_neg hfails⟩
  obtain ⟨status, hexec⟩ := hexec
  exact ⟨status, by rw [hrun, Prog.bind_of_ok hexec]; rfl⟩

private theorem gitCheckout_ranBatches (env : Env) (paths : List Bytes) (w : World) :
    ∃ batches events ok w', InBatches paths batches ∧ RanBatches batches events ok ∧
      gitCheckout env paths w = (.ok ok, w') ∧ w'.trace = w.trace ++ events := by
  fun_induction gitCheckout env paths generalizing w with
  | case1 paths hlength ih =>
    have hne : paths.take gitCheckoutBatchSize ≠ [] := by
      rw [ne_eq, ← List.length_eq_zero_iff, List.length_take_of_le hlength]
      decide
    obtain ⟨status, hbatch⟩ := gitCheckoutBatch_run env hne w
    obtain ⟨batches, events, ok, w', hbatches, hran, hrest, htrace⟩ :=
      ih (w.note (.ran (.gitCheckout (paths.take gitCheckoutBatchSize)) status))
    rw [Prog.bind_of_ok hbatch]
    by_cases hstatus : status = 0
    · subst hstatus
      refine ⟨_, _, ok, w', hbatches.cons hlength, hran.next _, hrest, ?_⟩
      rw [htrace]
      exact List.append_assoc _ _ _
    · have hfailed : successfulExit status = false := decide_eq_false hstatus
      rw [hfailed]
      exact ⟨_, _, false, _, hbatches.cons hlength, .failed _ batches status hstatus, rfl, rfl⟩
  | case2 paths hlength =>
    by_cases hne : paths = []
    · subst hne
      exact ⟨[], [], true, w, .nil, .done, rfl, (List.append_nil _).symm⟩
    · obtain ⟨status, hbatch⟩ := gitCheckoutBatch_run env hne w
      have hbatches := InBatches.single hne (Nat.lt_of_not_le hlength)
      by_cases hstatus : status = 0
      · subst hstatus
        exact ⟨_, _, true, _, hbatches, RanBatches.done.next paths, hbatch, rfl⟩
      · have hfailed : successfulExit status = false := decide_eq_false hstatus
        rw [hfailed] at hbatch
        exact ⟨_, _, false, _, hbatches, .failed paths [] status hstatus, hbatch, rfl⟩

/-- Every path is in one batch, and the batches are checked out in order. Where all of them succeed
these are all the commands that are run; otherwise those up to the first that fails. -/
theorem gitCheckout_batches (env : Env) (paths : List Bytes) (w : World) :
    ∃ batches w', InBatches paths batches ∧
      (gitCheckout env paths w = (.ok true, w') ∧ w'.trace = w.trace ++ checkouts batches ∨
        gitCheckout env paths w = (.ok false, w') ∧ ∃ before batch later status,
          batches = before ++ batch :: later ∧ status ≠ 0 ∧
            w'.trace = w.trace ++ checkouts before ++ [.ran (.gitCheckout batch) status]) := by
  obtain ⟨batches, events, ok, w', hbatches, hran, hrun, htrace⟩ := gitCheckout_ranBatches env paths w
  refine ⟨batches, w', hbatches, ?_⟩
  cases ok with
  | true =>
    rw [hran.all] at htrace
    exact Or.inl ⟨hrun, htrace⟩
  | false =>
    obtain ⟨before, batch, later, status, hsplit, hstatus, hevents⟩ := hran.stopped
    rw [hevents, ← List.append_assoc] at htrace
    exact Or.inr ⟨hrun, before, batch, later, status, hsplit, hstatus, htrace⟩

end GitCrypt
