import GitCrypt.Effects

/-! What is seen of the operations: the repository, and the events of the working tree and the
index, after each of them. -/
namespace GitCrypt
open Iostream Posix
variable {α : Type} {env : Env}

/-- However the program ends, what is seen of it satisfies the invariant. -/
abbrev Preserves (I : Repo × List Event → Prop) (m : Action α) : Prop :=
  Maintains (fun w : World => I w.seen) m

theorem Quiet.preserves {m : Action α} (h : Quiet m) (I : Repo × List Event → Prop) : Preserves I m :=
  h.triple I

theorem World.seen_note_of_visible {w : World} {event : Event} (h : event.visible = true) :
    (w.note event).seen = (w.toRepo, w.seen.2 ++ [event]) := by
  rw [World.seen, World.note, List.filter_append, List.filter_cons_of_pos h, List.filter_nil]
  rfl

section
variable {I : Repo × List Event → Prop}

private theorem hidden {w : World} {event : Event} (hv : event.visible = false) (hw : I w.seen) :
    I (w.note event).seen := by
  rw [World.seen_note hv]
  exact hw

private theorem shown {w : World} {event : Event} (hv : event.visible = true)
    (hw : I (w.toRepo, w.seen.2 ++ [event])) : I (w.note event).seen := by
  rw [World.seen_note_of_visible hv]
  exact hw

/-- A call that is not seen but for what it does to the tree. -/
theorem syscall_seen {call : FileCall} (hv : ∀ ok, (Event.called call ok).visible = false)
    {effect : FileSystem → Except Errno (α × FileSystem)} {s : Repo × List Event}
    {Q : Except Errno α → Repo × List Event → Prop} {E : Exception → World → Prop}
    (hfail : ¬ Reliable env → Q (.error .eio) s) (herror : ∀ e, effect s.1.fs = .error e → Q (.error e) s)
    (hok : ∀ a fs, effect s.1.fs = .ok (a, fs) → Q (.ok a) ({ s.1 with fs }, s.2)) :
    Triple (fun w => w.seen = s) (syscall env call effect) (fun res w => Q res w.seen) E := by
  rintro w rfl
  unfold syscall
  dsimp only
  split_ifs with hf
  · exact hidden (hv false) (hfail fun hreliable => by simp [hreliable w.ops] at hf)
  · cases he : effect w.fs with
    | error e => exact hidden (hv false) (herror e he)
    | ok res => exact @hidden (Q (.ok res.1)) { w with fs := res.2 } _ (hv true) (hok res.1 res.2 he)

theorem execCommand_seen {command : Command} (hv : ∀ status, (Event.ran command status).visible = false)
    {s : Repo × List Event} {Q : Nat × Bytes → Repo × List Event → Prop} {E : Exception → World → Prop}
    (hfail : ¬ Reliable env → Q (128, []) s)
    (hrun : ∀ w : World, w.seen = s → Q ((command.run env w).1, (command.run env w).2.1)
      ((command.run env w).2.2.toRepo, s.2)) :
    Triple (fun w => w.seen = s) (execCommand env command) (fun out w => Q out w.seen) E := by
  rintro w rfl
  unfold execCommand
  dsimp only
  split_ifs with hf
  · exact hidden (hv 128) (hfail fun hreliable => by simp [hreliable w.ops] at hf)
  · refine hidden (hv _) ?_
    rw [World.seen, Command.run_trace]
    exact hrun w rfl

/-- A system call that only edits the tree. -/
theorem syscall_edit_seen {call : FileCall} (hv : ∀ ok, (Event.called call ok).visible = false)
    {edit : FileSystem → Except Errno FileSystem} {s : Repo × List Event}
    {Q : Except Errno Unit → Repo × List Event → Prop} {E : Exception → World → Prop}
    (hfail : ¬ Reliable env → Q (.error .eio) s) (herror : ∀ e, edit s.1.fs = .error e → Q (.error e) s)
    (hok : ∀ fs, edit s.1.fs = .ok fs → Q (.ok ()) ({ s.1 with fs }, s.2)) :
    Triple (fun w => w.seen = s) (syscall env call fun fs => (edit fs).map ((), ·)) (fun res w => Q res w.seen) E := by
  refine syscall_seen hv hfail (fun e hm => ?_) fun _ fs hm => ?_
  · cases he : edit s.1.fs <;> rw [he] at hm <;> cases hm
    exact herror _ he
  · cases he : edit s.1.fs <;> rw [he] at hm <;> cases hm
    exact hok _ he

/-- A system call that only looks. -/
theorem syscall_query_seen {call : FileCall} (hv : ∀ ok, (Event.called call ok).visible = false)
    {query : FileSystem → Except Errno α} {s : Repo × List Event} {E : Exception → World → Prop} :
    Triple (fun w => w.seen = s) (syscall env call fun fs => (query fs).map (·, fs))
      (fun res w => w.seen = s ∧ (res = query s.1.fs ∨ ¬ Reliable env ∧ res = .error .eio)) E := by
  refine syscall_seen (Q := fun res s' => s' = s ∧ (res = query s.1.fs ∨ ¬ Reliable env ∧ res = .error .eio)) hv
    (fun hreliable => ⟨rfl, .inr ⟨hreliable, rfl⟩⟩) (fun e hm => ?_) fun a fs hm => ?_
  · cases hq : query s.1.fs <;> rw [hq] at hm <;> cases hm
    exact ⟨rfl, .inl rfl⟩
  · cases hq : query s.1.fs <;> rw [hq] at hm <;> cases hm
    exact ⟨rfl, .inl rfl⟩

theorem access_query_seen {path : Bytes} {s : Repo × List Event} {E : Exception → World → Prop} :
    Triple (fun w => w.seen = s) (access env path)
      (fun res w => w.seen = s ∧ (res = (s.1.fs.stat env.cwd path).map (fun _ => ()) ∨
        ¬ Reliable env ∧ res = .error .eio)) E := by
  have hquery : (fun fs : FileSystem => (fs.stat env.cwd path).map fun _ => ((), fs)) =
      fun fs => ((fs.stat env.cwd path).map fun _ => ()).map (·, fs) := by
    funext fs
    cases fs.stat env.cwd path <;> rfl
  unfold access
  rw [hquery]
  exact syscall_query_seen fun _ => rfl

/-- A subprocess that only answers. -/
theorem execCommand_query_seen {command : Command} (hw : command.writes = false)
    (hv : ∀ status, (Event.ran command status).visible = false) {s : Repo × List Event} {answer : Nat × Bytes}
    (h : ∀ w : World, w.toRepo = s.1 → ((command.run env w).1, (command.run env w).2.1) = answer)
    {E : Exception → World → Prop} :
    Triple (fun w => w.seen = s) (execCommand env command)
      (fun out w => w.seen = s ∧ (out = answer ∨ ¬ Reliable env ∧ out = (128, []))) E := by
  refine execCommand_seen (Q := fun out s' => s' = s ∧ (out = answer ∨ ¬ Reliable env ∧ out = (128, []))) hv
    (fun hreliable => ⟨rfl, .inr ⟨hreliable, rfl⟩⟩) ?_
  rintro w rfl
  exact ⟨Prod.ext (Command.run_of_not_writes hw w) rfl, .inl (h w rfl)⟩

/-- A subprocess that is seen and only answers. -/
theorem execCommand_shown (answer : Nat × Bytes) {command : Command} (hw : command.writes = false)
    (hv : ∀ status, (Event.ran command status).visible = true)
    (h : ∀ w : World, ((command.run env w).1, (command.run env w).2.1) = answer) {s : Repo × List Event}
    {E : Exception → World → Prop} :
    Triple (fun w => w.seen = s) (execCommand env command)
      (fun out w => w.seen = (s.1, s.2 ++ [.ran command out.1]) ∧ (Reliable env → out = answer)) E := by
  rintro w rfl
  unfold execCommand
  dsimp only
  split_ifs with hf
  · exact ⟨World.seen_note_of_visible (hv 128), fun hreliable => by simp [hreliable w.ops] at hf⟩
  · refine ⟨(World.seen_note_of_visible (hv _)).trans ?_, fun _ => h w⟩
    rw [World.seen, Command.run_trace, Command.run_of_not_writes hw]
    rfl

theorem syscall_edit_preserves {call : FileCall} (hv : ∀ ok, (Event.called call ok).visible = false)
    {edit : FileSystem → Except Errno FileSystem}
    (h : ∀ s fs, I s → edit s.1.fs = .ok fs → I ({ s.1 with fs }, s.2)) :
    Preserves I (syscall env call fun fs => (edit fs).map ((), ·)) :=
  fun w hw => syscall_edit_seen (Q := fun _ => I) hv (fun _ => hw) (fun _ _ => hw) (fun fs he => h _ fs hw he) w rfl

theorem execCommand_preserves {command : Command} (hv : ∀ status, (Event.ran command status).visible = false)
    (h : ∀ w : World, I w.seen → I ((command.run env w).2.2.toRepo, w.seen.2)) :
    Preserves I (execCommand env command) :=
  fun w hw => execCommand_seen (Q := fun _ => I) hv (fun _ => hw)
    (fun w' he => he ▸ h w' (he ▸ hw)) w rfl

theorem mkdirParent_preserves
    (h : ∀ s dir fs, I s → s.1.fs.mkdir env.cwd dir = .ok fs → I ({ s.1 with fs }, s.2)) (path : Bytes) :
    Preserves I (mkdirParent env path) := by
  refine .forM fun dir _ => .bind ((syscall_map_quiet fun _ => rfl).preserves I) fun res => ?_
  split
  · exact .pure _
  · exact .throw _
  · refine .bind (syscall_edit_preserves (fun _ => rfl) fun s fs hs hm => h s dir fs hs hm) fun res => ?_
    split
    · exact .pure _
    · exact .throw _
  · exact .throw _

theorem writeContents_preserves {path : Bytes}
    (h : ∀ s edit fs, I s → s.1.fs.writeFile env.cwd path edit = .ok fs → I ({ s.1 with fs }, s.2)) (data : Bytes) :
    Preserves I (writeContents env path data) := by
  intro w hw
  unfold writeContents
  dsimp only
  cases hwrite : w.fs.writeFile env.cwd path
      (· ++ if env.fails w.ops = true then data.take (env.short w.ops) else data) with
  | error e => exact hidden rfl hw
  | ok fs => exact @hidden I { w with fs } (.called (.write path) (!env.fails w.ops)) rfl (h w.seen _ fs hw hwrite)

theorem storeToFile_preserves {path : Bytes}
    (h : ∀ s edit fs, I s → s.1.fs.writeFile env.cwd path edit = .ok fs → I ({ s.1 with fs }, s.2))
    (keyFile : KeyFile) : Preserves I (storeToFile env keyFile path) := by
  have hcreate (edit : Bytes → Bytes) :
      Preserves I (syscall env (.create path) fun fs => (fs.writeFile env.cwd path edit).map ((), ·)) :=
    syscall_edit_preserves (fun _ => rfl) fun s fs hs hw => h s edit fs hs hw
  refine .bind (.bind (hcreate id) fun res => ?_) fun _ => .bind (hcreate _) fun res => ?_
  · split
    · exact .pure _
    · exact .throw _
  · split
    · exact .pure _
    · exact writeContents_preserves h _

theorem removeFile_preserves {path : Bytes}
    (h : ∀ s fs, I s → s.1.fs.unlink env.cwd path = .ok fs → I ({ s.1 with fs }, s.2)) :
    Preserves I (removeFile env path) := by
  refine .bind (syscall_edit_preserves (fun _ => rfl) h) fun res => ?_
  split
  · exact .pure _
  · exact .pure _
  · exact .throw _

theorem touchFile_preserves {filename : Bytes}
    (h : ∀ s ok, I s → I (s.1, s.2 ++ [.called (.utimes filename) ok])) : Preserves I (touchFile env filename) := by
  refine .bind (fun w hw => ?_) fun res => ?_
  · have hshown (ok : Bool) : I (w.note (.called (.utimes filename) ok)).seen := shown rfl (h w.seen ok hw)
    unfold syscall
    dsimp only
    split_ifs
    · exact hshown false
    · cases w.fs.stat env.cwd filename with
      | error e => exact hshown false
      | ok node => exact hshown true
  · split
    · exact .pure _
    · exact .pure _
    · exact .throw _

theorem gitCheckoutBatch_preserves {paths : List Bytes}
    (h : ∀ s status, I s → I (s.1, s.2 ++ [.ran (.gitCheckout paths) status])) :
    Preserves I (gitCheckoutBatch env paths) := by
  refine .ite (fun _ => .pure _) fun _ => .bind (fun w hw => ?_) fun out => .pure _
  have hshown (status : Nat) : I (w.note (.ran (.gitCheckout paths) status)).seen := shown rfl (h w.seen status hw)
  unfold execCommand
  dsimp only
  split_ifs
  · exact hshown 128
  · exact hshown 0

theorem gitCheckout_preserves {paths : List Bytes}
    (h : ∀ s batch status, batch ⊆ paths → I s → I (s.1, s.2 ++ [.ran (.gitCheckout batch) status])) :
    Preserves I (gitCheckout env paths) := by
  fun_induction gitCheckout env paths with
  | case1 paths hlength ih =>
    have hrest := ih fun s batch status hsub => h s batch status fun path hmem => List.drop_subset _ _ (hsub hmem)
    refine .bind (gitCheckoutBatch_preserves fun s status => h s _ status (List.take_subset _ _)) fun ok => ?_
    exact .ite (fun _ => .pure _) fun _ => hrest
  | case2 paths hlength => exact gitCheckoutBatch_preserves fun s status => h s _ status fun _ => id

end

theorem Quiet.seen_eq {m : Action α} (h : Quiet m) {w w' : World} {result : Except Exception α}
    (hrun : m w = (result, w')) : w'.seen = w.seen := by
  have hs := h w
  rwa [hrun] at hs

end GitCrypt
