import GitCrypt.Coprocess

/-! What the children of `Coprocess` objects get: which of their descriptors are the pipes, and
when a pipe comes to its end. -/
namespace GitCrypt
open Posix Descriptors

/-! ### The descriptors of a child -/

section
variable {φ : Type} {t : Descriptors φ} {fd : Option Nat} {standard x : Nat}

theorem closeFd_apply : closeFd fd t x = if fd = some x then none else t x := by
  cases fd with
  | none => rfl
  | some fd =>
    by_cases hx : x = fd
    · simp [closeFd, close, hx]
    · simp [closeFd, close, hx, Ne.symm hx]

theorem moveFd_apply {fd : Nat} : moveFd (some fd) standard t x =
    if x = fd then none else if x = standard then t fd else t x := by
  by_cases hx : x = fd
  · simp [moveFd, close, hx]
  · by_cases hs : x = standard
    · simp [moveFd, close, dup2, hs, hs ▸ hx]
    · simp [moveFd, close, dup2, hx, hs]

/-- What is moved was there before. -/
theorem moveFd_some {file : OpenFile φ} (h : moveFd fd standard t x = some file) : ∃ y, t y = some file := by
  cases fd with
  | none => exact ⟨x, h⟩
  | some fd =>
    rw [moveFd_apply] at h
    split_ifs at h with hx hs
    · exact ⟨fd, h⟩
    · exact ⟨x, h⟩

end

namespace Coprocesses
variable {φ : Type} {files : Nat → Option φ} {s s' : Coprocesses φ} {i j limit : Nat}

/-- A child as its object would fork it now. -/
def childTable (s : Coprocesses φ) (i : Nat) : Descriptors φ := (s.object i).childTable s.parent

/-- The table before the ends of the pipes are moved. -/
private theorem Accounted.unmoved (h : Accounted files s) {ch : Channel} {e : End} {fd : Nat}
    (hfd : (s.object i).fd ch e = some fd) (hmoved : ¬ (ch = .stdin ∧ e = .writer) ∧ ¬ (ch = .stdout ∧ e = .reader)) :
    closeFd ((s.object i).fd .stdout .reader) (closeFd ((s.object i).fd .stdin .writer) s.parent) fd =
      some (e.file ((s.object i).pipe ch)) := by
  rw [closeFd_apply, if_neg, closeFd_apply, if_neg]
  · exact (h.held hfd).2
  · intro hw
    obtain ⟨-, hch, he⟩ := h.unique hfd hw
    exact hmoved.1 ⟨hch, he⟩
  · intro hr
    obtain ⟨-, hch, he⟩ := h.unique hfd hr
    exact hmoved.2 ⟨hch, he⟩

/-- The standard input of the child is the pipe, unless one of the descriptors is in its way. -/
theorem Accounted.childTable_stdin (h : Accounted files s) {r : Nat} (hr : (s.object i).fd .stdin .reader = some r) :
    s.childTable i 0 = some (.reader ((s.object i).pipe .stdin)) ↔ r ≠ 0 ∧ (s.object i).fd .stdout .writer ≠ some 0 := by
  have hthere := h.unmoved hr (by simp)
  unfold childTable Coprocess.childTable
  rw [hr]
  cases hw : (s.object i).fd .stdout .writer with
  | none =>
    rw [moveFd, moveFd_apply, hthere]
    by_cases h0 : r = 0
    · simp [h0]
    · simp [h0, Ne.symm h0, End.file]
  | some w =>
    simp only [moveFd_apply, hthere]
    by_cases h0 : r = 0
    · by_cases hw0 : w = 0
      · simp [h0, hw0]
      · simp [h0, Ne.symm hw0]
    · by_cases hw0 : w = 0
      · simp [h0, hw0]
      · simp [h0, Ne.symm h0, hw0, Ne.symm hw0, End.file]

/-- The same of its standard output. -/
theorem Accounted.childTable_stdout (h : Accounted files s) {w : Nat} (hw : (s.object i).fd .stdout .writer = some w) :
    s.childTable i 1 = some (.writer ((s.object i).pipe .stdout)) ↔
      w ≠ 1 ∧ (w = 0 → (s.object i).fd .stdin .reader = none) := by
  have hthere := h.unmoved hw (by simp)
  unfold childTable Coprocess.childTable
  rw [hw]
  cases hr : (s.object i).fd .stdin .reader with
  | none =>
    rw [moveFd_apply, moveFd, hthere]
    by_cases h1 : w = 1
    · simp [h1]
    · simp [h1, Ne.symm h1, End.file]
  | some r =>
    have hne : w ≠ r := by
      rintro rfl
      cases (h.unique hw hr).2.1
    have hreader := h.unmoved hr (by simp)
    rw [moveFd_apply, moveFd_apply, moveFd_apply, if_neg hne, hthere, hreader]
    by_cases h1 : w = 1
    · simp [h1]
    · by_cases h0 : w = 0
      · simp [h0, End.file]
      · simp [h1, Ne.symm h1, h0, End.file]

/-- From 2 on the child has what the program has, without the descriptors of its own object. -/
private theorem childTable_of_ge (s : Coprocesses φ) (i : Nat) {x : Nat} (hx : 2 ≤ x) :
    ((∃ ch e, (s.object i).fd ch e = some x) → s.childTable i x = none) ∧
      ((∀ ch e, (s.object i).fd ch e ≠ some x) → s.childTable i x = s.parent x) := by
  have hmove {fd : Option Nat} {standard : Nat} {t : Descriptors φ} (hs : standard < 2) :
      moveFd fd standard t x = if fd = some x then none else t x := by
    cases fd with
    | none => rfl
    | some fd =>
      rw [moveFd_apply, if_neg (show x ≠ standard by omega)]
      by_cases he : x = fd
      · simp [he]
      · simp [he, Ne.symm he]
  have htable : s.childTable i x =
      if (s.object i).fd .stdout .writer = some x then none
      else if (s.object i).fd .stdin .reader = some x then none
      else if (s.object i).fd .stdout .reader = some x then none
      else if (s.object i).fd .stdin .writer = some x then none
      else s.parent x := by
    rw [childTable, Coprocess.childTable, hmove (by omega), hmove (by omega), closeFd_apply, closeFd_apply]
  rw [htable]
  constructor
  · rintro ⟨ch, e, hfd⟩
    cases ch <;> cases e <;> simp [hfd]
  · intro hnot
    simp [hnot]

/-- However the objects have been used, a child that is forked now has the pipes of its object for
its standard streams unless they were put where a standard stream was closed; and of the
descriptors from 2 on it lacks those of its object, and no others. -/
theorem childTable_performAll (files : Nat → Option φ) (limit : Nat) (calls : List (CoprocessCall × Bool)) (i : Nat) :
    let s := (start files).performAll limit calls
    (∀ r, (s.object i).fd .stdin .reader = some r →
        (s.childTable i 0 = some (.reader ((s.object i).pipe .stdin)) ↔
          r ≠ 0 ∧ (s.object i).fd .stdout .writer ≠ some 0)) ∧
      (∀ w, (s.object i).fd .stdout .writer = some w →
        (s.childTable i 1 = some (.writer ((s.object i).pipe .stdout)) ↔
          w ≠ 1 ∧ (w = 0 → (s.object i).fd .stdin .reader = none))) ∧
      ∀ x, 2 ≤ x → ((∃ ch e, (s.object i).fd ch e = some x) → s.childTable i x = none) ∧
        ((∀ ch e, (s.object i).fd ch e ≠ some x) → s.childTable i x = s.parent x) := by
  have haccounted := (@Accounted.performAll φ files _ limit calls (accounted_start files) (unset_start files)).1
  exact ⟨fun r => haccounted.childTable_stdin, fun w => haccounted.childTable_stdout, fun x => childTable_of_ge _ i⟩

/-- The program that has its standard streams never gets in their way. -/
theorem childTable_of_files {files : Nat → Option φ} (hin : files 0 ≠ none) (hout : files 1 ≠ none) (limit : Nat)
    (calls : List (CoprocessCall × Bool)) (i : Nat) :
    let s := (start files).performAll limit calls
    (∀ r, (s.object i).fd .stdin .reader = some r →
        s.childTable i 0 = some (.reader ((s.object i).pipe .stdin))) ∧
      ∀ w, (s.object i).fd .stdout .writer = some w →
        s.childTable i 1 = some (.writer ((s.object i).pipe .stdout)) := by
  intro s
  have haccounted := (@Accounted.performAll φ files _ limit calls (accounted_start files) (unset_start files)).1
  have hne {fd : Nat} (hgiven : files fd ≠ none) (ch : Channel) (e : End) : (s.object i).fd ch e ≠ some fd :=
    fun hfd => hgiven (haccounted.held hfd).1
  constructor
  · intro r hr
    refine (haccounted.childTable_stdin hr).mpr ⟨?_, hne hin _ _⟩
    rintro rfl
    exact hne hin _ _ hr
  · intro w hw
    refine (haccounted.childTable_stdout hw).mpr ⟨?_, ?_⟩
    · rintro rfl
      exact hne hout _ _ hw
    · rintro rfl
      exact absurd hw (hne hin _ _)

/-! ### Where a pipe ends -/

/-- No other object has the writing end of a pipe open. -/
def Alone (s : Coprocesses φ) (i : Nat) : Prop := ∀ j, j ≠ i → ∀ ch, (s.object j).fd ch .writer = none

/-- The object has spawned no child since it opened the pipe it reads from. -/
def Unspent (s : Coprocesses φ) (i : Nat) : Prop :=
  ∀ fd, (s.object i).fd .stdout .reader = some fd → (s.object i).fd .stdout .writer ≠ none

/-- The states of a program that spawns nothing while another object has a pipe to write to, and one
child only with the pipe that its output is read from. -/
inductive RunsAlone (limit : Nat) (files : Nat → Option φ) : Coprocesses φ → Prop
  | start : RunsAlone limit files (start files)
  | call {s s' : Coprocesses φ} {call : CoprocessCall} {fails : Bool} (h : RunsAlone limit files s)
    (halone : ∀ i, call = .spawn i → s.Alone i ∧ s.Unspent i) (hcall : s.perform limit fails call = some s') :
    RunsAlone limit files s'

/-- No child can write to a pipe that the program can write to, and to the pipe that an object reads
from only the last child of the object can. -/
structure Sealed (s : Coprocesses φ) : Prop where
  older : ∀ child ∈ s.children, ∀ k, Holds child.2 (.writer k) → k < s.pipes
  unshared : ∀ i ch fd, (s.object i).fd ch .writer = some fd → ∀ child ∈ s.children,
    ¬ Holds child.2 (.writer ((s.object i).pipe ch))
  stdout : ∀ i fd, (s.object i).fd .stdout .reader = some fd → ∀ before child after,
    s.children = before ++ child :: after → Holds child.2 (.writer ((s.object i).pipe .stdout)) →
      child.1 = i ∧ ∀ later ∈ after, later.1 ≠ i

/-- A descriptor of the program on the writing end of a pipe is a member. -/
theorem Accounted.of_writer (h : Accounted files s) {fd k : Nat} (hfd : s.parent fd = some (.writer k)) :
    ∃ i ch, (s.object i).fd ch .writer = some fd ∧ (s.object i).pipe ch = k := by
  by_contra hnone
  have hnobody : ∀ i ch e, (s.object i).fd ch e ≠ some fd := by
    intro i ch e hs
    have hfile := Option.some.inj ((h.held hs).2.symm.trans hfd)
    cases e with
    | reader => cases hfile
    | writer => exact hnone ⟨i, ch, hs, OpenFile.writer.inj hfile⟩
  rw [h.others hnobody] at hfd
  cases hf : files fd <;> rw [hf] at hfd <;> cases hfd

/-- A child gets the writing ends of the other objects, and of its own object that of its standard
output. -/
theorem Accounted.childTable_holds (h : Accounted files s) {k : Nat} (hk : Holds (s.childTable i) (.writer k)) :
    ∃ j ch fd, (s.object j).fd ch .writer = some fd ∧ (s.object j).pipe ch = k ∧ (j = i → ch = .stdout) := by
  obtain ⟨x, hx⟩ := hk
  obtain ⟨y, hy⟩ := moveFd_some hx
  obtain ⟨z, hz⟩ := moveFd_some hy
  rw [closeFd_apply] at hz
  split_ifs at hz with hreader
  rw [closeFd_apply] at hz
  split_ifs at hz with hwriter
  obtain ⟨j, ch, hfd, hpipe⟩ := h.of_writer hz
  refine ⟨j, ch, z, hfd, hpipe, ?_⟩
  rintro rfl
  cases ch with
  | stdin => exact absurd hfd hwriter
  | stdout => rfl

/-- Alone, it gets the latter only. -/
theorem Accounted.childTable_holds_alone (h : Accounted files s) (halone : s.Alone i) {k : Nat}
    (hk : Holds (s.childTable i) (.writer k)) :
    ∃ fd, (s.object i).fd .stdout .writer = some fd ∧ (s.object i).pipe .stdout = k := by
  obtain ⟨j, ch, fd, hfd, hpipe, hown⟩ := h.childTable_holds hk
  by_cases hj : j = i
  · obtain rfl := hown hj
    exact ⟨fd, hj ▸ hfd, hj ▸ hpipe⟩
  · rw [halone j hj ch] at hfd
    cases hfd

theorem RunsAlone.accounted (h : RunsAlone limit files s) : Accounted files s ∧ s.Unset := by
  induction h with
  | start => exact ⟨accounted_start files, unset_start files⟩
  | call _ _ hcall ih => exact ih.1.perform ih.2 hcall

private theorem sealed_start (files : Nat → Option φ) : (start files).Sealed where
  older := fun child hchild => by cases hchild
  unshared := fun i ch fd hfd => by cases hfd
  stdout := fun i fd hfd => by cases hfd

/-- Where members are only closed, nothing else is to be shown. -/
theorem Sealed.of_closed (h : s.Sealed) (hpipes : s'.pipes = s.pipes) (hchildren : s'.children = s.children)
    (hfd : ∀ j ch e fd, (s'.object j).fd ch e = some fd → (s.object j).fd ch e = some fd)
    (hpipe : ∀ j, (s'.object j).pipe = (s.object j).pipe) : s'.Sealed := by
  constructor
  · rw [hpipes, hchildren]
    exact h.older
  · intro j ch fd hj
    rw [hchildren, hpipe]
    exact h.unshared j ch fd (hfd _ _ _ _ hj)
  · intro j fd hj
    rw [hchildren, hpipe]
    exact h.stdout j fd (hfd _ _ _ _ hj)

theorem Sealed.closeEnd (h : s.Sealed) (i : Nat) (ch : Channel) (e : End) : (s.closeEnd i ch e).Sealed := by
  refine h.of_closed (closeEnd_pipes ..) (closeEnd_children ..) (fun j ch' e' fd hj => ?_) (fun j => closeEnd_pipe ..)
  rw [closeEnd_fd] at hj
  split_ifs at hj
  exact hj

theorem Sealed.closePipe (h : s.Sealed) (i : Nat) (ch : Channel) : (s.closePipe i ch).Sealed := by
  have hunset : (s.unsetStream i ch).Sealed := h.of_closed rfl rfl
    (fun j ch' e' fd hj => by rwa [unsetStream_fd] at hj) fun j => unsetStream_pipe s i j ch
  exact (hunset.closeEnd i ch .writer).closeEnd i ch .reader

/-- A new pipe has a number of its own. -/
theorem Sealed.openPipe {fails : Bool} {ch : Channel} (h : s.Sealed) (hopen : s.openPipe limit fails i ch = some s') :
    s'.Sealed := by
  rcases openPipe_some hopen with ⟨rfl, -⟩ | ⟨-, reader, writer, parent, -, -, hpipes, hchildren, -, hfd, hpipe, -⟩
  · exact h
  have hnew : ∀ child ∈ s.children, ¬ Holds child.2 (.writer s.pipes) :=
    fun child hchild hk => absurd (h.older child hchild _ hk) (Nat.lt_irrefl _)
  constructor
  · intro child hchild k hk
    rw [hchildren] at hchild
    rw [hpipes]
    exact Nat.lt_succ_of_lt (h.older child hchild k hk)
  · intro j ch' fd hj child hchild
    rw [hchildren] at hchild
    rw [hfd] at hj
    rw [hpipe]
    split_ifs at hj ⊢ with hsame
    · exact hnew child hchild
    · exact h.unshared j ch' fd hj child hchild
  · intro j fd hj before child after hsplit hk
    rw [hchildren] at hsplit
    rw [hfd] at hj
    rw [hpipe] at hk
    split_ifs at hj hk with hsame
    · exact absurd hk (hnew child (by rw [hsplit]; exact List.mem_append_cons_self))
    · exact h.stdout j fd hj before child after hsplit hk

/-- The child that is forked is the first that can write to the pipe its output is read from, and the
program closes its own end. -/
theorem Sealed.spawn {fails : Bool} (h : s.Sealed) (haccounted : Accounted files s) (halone : s.Alone i)
    (hunspent : s.Unspent i) (hspawn : s.spawn fails i = some s') : s'.Sealed := by
  obtain ⟨hchildren, hpipes, hpipe, hfd⟩ := spawn_fields hspawn
  have hkept {j ch e fd} (hj : (s'.object j).fd ch e = some fd) :
      (s.object j).fd ch e = some fd ∧ ¬ (j = i ∧ ch = .stdout ∧ e = .writer) := by
    rw [hfd] at hj
    split_ifs at hj with hclosed
    exact ⟨hj, fun hw => hclosed ⟨hw.1, .inr hw.2⟩⟩
  -- what the new child can write to is the pipe of its object
  have hholds {j ch e fd} (hj : (s.object j).fd ch e = some fd)
      (hk : Holds (s.childTable i) (.writer ((s.object j).pipe ch))) : i = j ∧ ch = .stdout := by
    obtain ⟨fd', hfd', hnumber⟩ := haccounted.childTable_holds_alone halone hk
    obtain ⟨hij, hch⟩ := haccounted.apart hfd' hj hnumber
    exact ⟨hij, hch.symm⟩
  constructor
  · intro child hmem k hk
    rw [hpipes]
    rw [hchildren, List.mem_append, List.mem_singleton] at hmem
    rcases hmem with hmem | rfl
    · exact h.older child hmem k hk
    · obtain ⟨fd, hfd, rfl⟩ := haccounted.childTable_holds_alone halone hk
      exact haccounted.older hfd
  · intro j ch fd hj child hmem hk
    obtain ⟨hj, hother⟩ := hkept hj
    rw [hpipe] at hk
    rw [hchildren, List.mem_append, List.mem_singleton] at hmem
    rcases hmem with hmem | rfl
    · exact h.unshared j ch fd hj child hmem hk
    · obtain ⟨hij, hch⟩ := hholds hj hk
      exact hother ⟨hij.symm, hch, rfl⟩
  · intro j fd hj before child after hsplit hk
    obtain ⟨hj, -⟩ := hkept hj
    rw [hpipe] at hk
    rw [hchildren] at hsplit
    rcases List.eq_nil_or_concat after with rfl | ⟨after, last, rfl⟩
    · obtain ⟨-, hchild⟩ := List.append_inj' hsplit rfl
      cases hchild
      exact ⟨(hholds hj hk).1, fun _ hlater => by cases hlater⟩
    · rw [List.concat_eq_append, ← List.cons_append, ← List.append_assoc] at hsplit
      obtain ⟨hold, hlast⟩ := List.append_inj' hsplit rfl
      cases hlast
      obtain ⟨hchild, hlater⟩ := h.stdout j fd hj before child after hold hk
      refine ⟨hchild, fun later hmem => ?_⟩
      rw [List.concat_eq_append, List.mem_append, List.mem_singleton] at hmem
      rcases hmem with hmem | rfl
      · exact hlater later hmem
      · rintro rfl
        obtain ⟨fd', hfd'⟩ := Option.ne_none_iff_exists'.mp (hunspent fd hj)
        exact h.unshared i .stdout fd' hfd' child (by rw [hold]; exact List.mem_append_cons_self) hk

theorem RunsAlone.sealed (h : RunsAlone limit files s) : s.Sealed := by
  induction h with
  | start => exact sealed_start files
  | @call s s' call fails h halone hcall ih =>
    cases call with
    | stdinPipe i => exact ih.openPipe hcall
    | stdoutPipe i => exact ih.openPipe hcall
    | spawn i => exact ih.spawn h.accounted.1 (halone i rfl).1 (halone i rfl).2 hcall
    | closeStdin i =>
      cases hcall
      exact ih.closePipe i .stdin
    | closeStdout i =>
      cases hcall
      exact ih.closePipe i .stdout
    | destroy i =>
      cases hcall
      exact (ih.closePipe i .stdin).closePipe i .stdout

/-- After `close_stdin` nobody can write to the standard input of the child: it meets its end. -/
theorem RunsAlone.closeStdin_ends (h : RunsAlone limit files s) {fd : Nat}
    (hfd : (s.object i).fd .stdin .writer = some fd) :
    ¬ Holds (s.closeStdin i).parent (.writer ((s.object i).pipe .stdin)) ∧
      ∀ child ∈ (s.closeStdin i).children, ¬ Holds child.2 (.writer ((s.object i).pipe .stdin)) := by
  have haccounted := h.accounted.1
  have hchildren : (s.closeStdin i).children = s.children := by
    rw [closeStdin, closePipe, closeEnd_children, closeEnd_children]
    rfl
  refine ⟨?_, hchildren ▸ h.sealed.unshared i .stdin fd hfd⟩
  rintro ⟨x, hx⟩
  obtain ⟨j, ch, hj, hpipe⟩ := (haccounted.closePipe i .stdin).of_writer hx
  rw [closePipe_fd] at hj
  split_ifs at hj with hsame
  have hnumber : ((s.closePipe i .stdin).object j).pipe = (s.object j).pipe := by
    rw [closePipe, closeEnd_pipe, closeEnd_pipe, unsetStream_pipe]
  rw [hnumber] at hpipe
  exact hsame (haccounted.apart hj hfd hpipe)

/-- After `spawn` only the last child of the object can write to the pipe that the program reads. -/
theorem RunsAlone.stdout_ends (h : RunsAlone limit files s) {fd : Nat}
    (hreader : (s.object i).fd .stdout .reader = some fd) (hwriter : (s.object i).fd .stdout .writer = none) :
    ¬ Holds s.parent (.writer ((s.object i).pipe .stdout)) ∧
      ∀ before child after, s.children = before ++ child :: after →
        Holds child.2 (.writer ((s.object i).pipe .stdout)) → child.1 = i ∧ ∀ later ∈ after, later.1 ≠ i := by
  refine ⟨?_, h.sealed.stdout i fd hreader⟩
  rintro ⟨x, hx⟩
  obtain ⟨j, ch, hj, hpipe⟩ := h.accounted.1.of_writer hx
  obtain ⟨rfl, rfl⟩ := h.accounted.1.apart hj hreader hpipe
  rw [hwriter] at hj
  cases hj

end Coprocesses

/-! ### The calls of the program -/

/-- `exec_command` -/
def execCommandCalls (i : Nat) : List CoprocessCall := [.spawn i, .destroy i]

/-- `exec_command` with a stream for the output -/
def execCommandOutputCalls (i : Nat) : List CoprocessCall := [.stdoutPipe i, .spawn i, .destroy i]

def execCommandWithInputCalls (i : Nat) : List CoprocessCall := [.stdinPipe i, .spawn i, .closeStdin i, .destroy i]

/-- `get_encrypted_files`: 0 is `ls_files`, 1 is `check_attr`, and 2 is the object of an
`exec_command`. `asked` tells whether git is asked for its version, and `batch` whether one `git
check-attr` is used for all files. -/
def getEncryptedFilesCalls (asked batch : Bool) (files : Nat) : List CoprocessCall :=
  execCommandOutputCalls 2 ++ [.stdoutPipe 0, .spawn 0] ++ (if asked then execCommandOutputCalls 2 else []) ++
    (if batch then [.stdinPipe 1, .stdoutPipe 1, .spawn 1, .closeStdin 1]
      else (List.replicate files (execCommandOutputCalls 2)).flatten) ++ [.destroy 1, .destroy 0]

/-- The functions that make `Coprocess` objects. -/
inductive CoprocessScope where
  | execCommand
  | execCommandOutput
  | execCommandWithInput
  | getEncryptedFiles (asked batch : Bool) (files : Nat)

def CoprocessScope.calls : CoprocessScope → List CoprocessCall
  | execCommand => execCommandCalls 0
  | execCommandOutput => execCommandOutputCalls 0
  | execCommandWithInput => execCommandWithInputCalls 0
  | getEncryptedFiles asked batch files => getEncryptedFilesCalls asked batch files

/-- What the calls so far may have left: the objects that may have the writing end of a pipe open,
each with the channel, and those that may have spawned a child since they opened the pipe they read
from. -/
structure PipeUse where
  writers : List (Nat × Channel) := []
  spent : List Nat := []

/-- After a call. -/
def CoprocessCall.uses (u : PipeUse) : CoprocessCall → PipeUse
  | stdinPipe i => { u with writers := (i, .stdin) :: u.writers }
  | stdoutPipe i => { u with writers := (i, .stdout) :: u.writers }
  | spawn i => ⟨u.writers.filter (· ≠ (i, .stdout)), i :: u.spent⟩
  | closeStdin i => { u with writers := u.writers.filter (· ≠ (i, .stdin)) }
  | closeStdout i => ⟨u.writers.filter (· ≠ (i, .stdout)), u.spent.filter (· ≠ i)⟩
  | destroy i => ⟨u.writers.filter (·.1 ≠ i), u.spent.filter (· ≠ i)⟩

/-- Whether its object is alone and unspent, if the call is to `spawn`. -/
def CoprocessCall.alone (u : PipeUse) : CoprocessCall → Bool
  | spawn i => u.writers.all (fun w => w.1 = i) && !u.spent.contains i
  | _ => true

def spawnsAlone : PipeUse → List CoprocessCall → Bool
  | _, [] => true
  | u, call :: calls => call.alone u && spawnsAlone (call.uses u) calls

namespace Coprocesses
variable {φ : Type} {files : Nat → Option φ} {s s' : Coprocesses φ} {limit : Nat}

/-- The calls succeed, one after the other. -/
inductive Performs (limit : Nat) : Coprocesses φ → List CoprocessCall → Coprocesses φ → Prop
  | nil {s : Coprocesses φ} : Performs limit s [] s
  | cons {s s' s'' : Coprocesses φ} {call : CoprocessCall} {calls : List CoprocessCall} {fails : Bool}
    (hcall : s.perform limit fails call = some s') (h : Performs limit s' calls s'') : Performs limit s (call :: calls) s''

/-- The lists have all of them. -/
structure Within (s : Coprocesses φ) (u : PipeUse) : Prop where
  writers : ∀ i ch fd, (s.object i).fd ch .writer = some fd → (i, ch) ∈ u.writers
  spent : ∀ i, i ∉ u.spent → s.Unspent i

private theorem within_start (files : Nat → Option φ) : (start files).Within {} where
  writers := fun _ _ _ hfd => by cases hfd
  spent := fun _ _ _ hfd => by cases hfd

theorem Within.openPipe {u : PipeUse} {i : Nat} {ch : Channel} {fails : Bool} (h : s.Within u)
    (hopen : s.openPipe limit fails i ch = some s') : s'.Within { u with writers := (i, ch) :: u.writers } := by
  rcases openPipe_some hopen with ⟨rfl, -⟩ | ⟨-, reader, writer, parent, -, -, -, -, -, hfd, -, -⟩
  · exact ⟨fun j ch' fd hj => List.mem_cons_of_mem _ (h.writers j ch' fd hj), h.spent⟩
  constructor
  · intro j ch' fd hj
    rw [hfd] at hj
    split_ifs at hj with hsame
    · rw [hsame.1, hsame.2]
      exact List.mem_cons_self
    · exact List.mem_cons_of_mem _ (h.writers j ch' fd hj)
  · intro j hj fd hreader
    rw [hfd] at hreader ⊢
    split_ifs at hreader ⊢ with hsame
    · exact Option.some_ne_none writer
    · exact h.spent j hj fd hreader

theorem Within.closeStdin {u : PipeUse} (h : s.Within u) (i : Nat) :
    (s.closeStdin i).Within { u with writers := u.writers.filter (· ≠ (i, .stdin)) } := by
  constructor
  · intro j ch fd hj
    rw [Coprocesses.closeStdin, closePipe_fd] at hj
    split_ifs at hj with hsame
    exact List.mem_filter.mpr ⟨h.writers j ch fd hj, decide_eq_true fun he => hsame (Prod.mk.inj he)⟩
  · intro j hj fd hreader
    rw [Coprocesses.closeStdin, closePipe_fd, if_neg (by simp)] at hreader ⊢
    exact h.spent j hj fd hreader

theorem Within.closeStdout {u : PipeUse} (h : s.Within u) (i : Nat) :
    (s.closeStdout i).Within ⟨u.writers.filter (· ≠ (i, .stdout)), u.spent.filter (· ≠ i)⟩ := by
  constructor
  · intro j ch fd hj
    rw [Coprocesses.closeStdout, closePipe_fd] at hj
    split_ifs at hj with hsame
    exact List.mem_filter.mpr ⟨h.writers j ch fd hj, decide_eq_true fun he => hsame (Prod.mk.inj he)⟩
  · intro j hj fd hreader
    rw [Coprocesses.closeStdout, closePipe_fd] at hreader ⊢
    split_ifs at hreader ⊢ with hsame
    exact h.spent j (fun hmem => hj (List.mem_filter.mpr ⟨hmem, decide_eq_true fun he => hsame ⟨he, rfl⟩⟩)) fd hreader

theorem Within.spawn {u : PipeUse} {i : Nat} {fails : Bool} (h : s.Within u) (hspawn : s.spawn fails i = some s') :
    s'.Within ⟨u.writers.filter (· ≠ (i, .stdout)), i :: u.spent⟩ := by
  obtain ⟨-, -, -, hfd⟩ := spawn_fields hspawn
  constructor
  · intro j ch fd hj
    have hother : ¬ (j = i ∧ ch = .stdout) := by
      rintro ⟨rfl, rfl⟩
      rw [hfd, if_pos ⟨rfl, .inr ⟨rfl, rfl⟩⟩] at hj
      cases hj
    rw [hfd, if_neg (by simp [hother])] at hj
    exact List.mem_filter.mpr ⟨h.writers j ch fd hj, decide_eq_true fun he => hother (Prod.mk.inj he)⟩
  · intro j hj fd hreader
    obtain ⟨hne, hspent⟩ := not_or.mp (mt List.mem_cons.mpr hj)
    rw [hfd, if_neg (fun h => hne h.1)] at hreader ⊢
    exact h.spent j hspent fd hreader

theorem Within.perform {u : PipeUse} {fails : Bool} {call : CoprocessCall} (h : s.Within u)
    (hcall : s.perform limit fails call = some s') : s'.Within (call.uses u) := by
  cases call with
  | stdinPipe i => exact h.openPipe hcall
  | stdoutPipe i => exact h.openPipe hcall
  | spawn i => exact h.spawn hcall
  | closeStdin i =>
    cases hcall
    exact h.closeStdin i
  | closeStdout i =>
    cases hcall
    exact h.closeStdout i
  | destroy i =>
    cases hcall
    have hclosed := (h.closeStdin i).closeStdout i
    refine ⟨fun j ch fd hj => ?_, hclosed.spent⟩
    obtain ⟨hmem, hstdout⟩ := List.mem_filter.mp (hclosed.writers j ch fd hj)
    obtain ⟨hmem, hstdin⟩ := List.mem_filter.mp hmem
    refine List.mem_filter.mpr ⟨hmem, ?_⟩
    cases ch <;> simp_all

/-- What the check says holds of every run, to wherever it gets. -/
theorem RunsAlone.performs {u : PipeUse} {calls : List CoprocessCall} (h : RunsAlone limit files s)
    (hwithin : s.Within u) (hcheck : spawnsAlone u calls = true) {n : Nat}
    (hrun : Performs limit s (calls.take n) s') : RunsAlone limit files s' := by
  induction calls generalizing s u n with
  | nil =>
    rw [List.take_nil] at hrun
    cases hrun
    exact h
  | cons call calls ih =>
    cases n with
    | zero =>
      cases hrun
      exact h
    | succ n =>
      rw [List.take_succ_cons] at hrun
      cases hrun with
      | cons hcall hrest =>
        rw [spawnsAlone, Bool.and_eq_true] at hcheck
        refine ih (.call h ?_ hcall) (hwithin.perform hcall) hcheck.2 hrest
        rintro i rfl
        obtain ⟨halone, hunspent⟩ := Bool.and_eq_true_iff.mp hcheck.1
        refine ⟨fun j hj ch => ?_, hwithin.spent i (by simpa using hunspent)⟩
        by_contra hopen
        obtain ⟨fd, hfd⟩ := Option.ne_none_iff_exists'.mp hopen
        exact hj (of_decide_eq_true (List.all_eq_true.mp halone _ (hwithin.writers j ch fd hfd)))

/-- Calls that pass the check and lead from one use of the pipes to another. -/
private structure Settles (u : PipeUse) (calls : List CoprocessCall) (u' : PipeUse) : Prop where
  check : spawnsAlone u calls = true
  ends : calls.foldl CoprocessCall.uses u = u'

private theorem Settles.append {u u' u'' : PipeUse} {calls calls' : List CoprocessCall} (h : Settles u calls u')
    (h' : Settles u' calls' u'') : Settles u (calls ++ calls') u'' := by
  obtain ⟨hcheck, rfl⟩ := h
  refine ⟨?_, by rw [List.foldl_append, h'.ends]⟩
  have hcheck' := h'.check
  clear h'
  induction calls generalizing u with
  | nil => exact hcheck'
  | cons call calls ih =>
    rw [spawnsAlone, Bool.and_eq_true] at hcheck
    rw [List.cons_append, spawnsAlone, hcheck.1, ih hcheck.2 hcheck', Bool.true_and]

private theorem settles_replicate {u : PipeUse} {calls : List CoprocessCall} (h : Settles u calls u) (n : Nat) :
    Settles u (List.replicate n calls).flatten u := by
  induction n with
  | zero => exact ⟨rfl, rfl⟩
  | succ n ih =>
    rw [List.replicate_succ, List.flatten_cons]
    exact h.append ih

private theorem getEncryptedFiles_spawnsAlone (asked batch : Bool) (files : Nat) :
    spawnsAlone {} (getEncryptedFilesCalls asked batch files) = true := by
  have houtput : Settles {} (execCommandOutputCalls 2) {} := ⟨rfl, rfl⟩
  have hlsFiles : Settles {} [.stdoutPipe 0, .spawn 0] ⟨[], [0]⟩ := ⟨rfl, rfl⟩
  have houtput' : Settles ⟨[], [0]⟩ (execCommandOutputCalls 2) ⟨[], [0]⟩ := ⟨rfl, rfl⟩
  have hversion : Settles ⟨[], [0]⟩ (if asked then execCommandOutputCalls 2 else []) ⟨[], [0]⟩ := by
    cases asked
    · exact ⟨rfl, rfl⟩
    · exact houtput'
  have hattributes : ∃ u, Settles ⟨[], [0]⟩ (if batch then [.stdinPipe 1, .stdoutPipe 1, .spawn 1, .closeStdin 1]
      else (List.replicate files (execCommandOutputCalls 2)).flatten) u := by
    cases batch
    · exact ⟨_, settles_replicate houtput' files⟩
    · exact ⟨_, rfl, rfl⟩
  obtain ⟨u, hattributes⟩ := hattributes
  have hdestroy : Settles u [.destroy 1, .destroy 0] _ := ⟨rfl, rfl⟩
  exact ((((houtput.append hlsFiles).append hversion).append hattributes).append hdestroy).check

private theorem scope_spawnsAlone (scope : CoprocessScope) : spawnsAlone {} scope.calls = true := by
  cases scope with
  | execCommand => rfl
  | execCommandOutput => rfl
  | execCommandWithInput => rfl
  | getEncryptedFiles asked batch files => exact getEncryptedFiles_spawnsAlone asked batch files

/-- Wherever one of these functions is, with any version of git and any number of files: when it
closes the standard input of a child nobody can write to it any more, and once a child has been
spawned only that child, the last one of its object, can write to the pipe its output comes
through. -/
theorem scope_ends (files : Nat → Option φ) (limit : Nat) (scope : CoprocessScope) (n : Nat) {s : Coprocesses φ}
    (h : Performs limit (start files) (scope.calls.take n) s) (i : Nat) :
    (∀ fd, (s.object i).fd .stdin .writer = some fd →
        ¬ Holds (s.closeStdin i).parent (.writer ((s.object i).pipe .stdin)) ∧
          ∀ child ∈ (s.closeStdin i).children, ¬ Holds child.2 (.writer ((s.object i).pipe .stdin))) ∧
      ∀ fd, (s.object i).fd .stdout .reader = some fd → (s.object i).fd .stdout .writer = none →
        ¬ Holds s.parent (.writer ((s.object i).pipe .stdout)) ∧
          ∀ before child after, s.children = before ++ child :: after →
            Holds child.2 (.writer ((s.object i).pipe .stdout)) → child.1 = i ∧ ∀ later ∈ after, later.1 ≠ i := by
  have hruns : RunsAlone limit files s := RunsAlone.performs .start (within_start files) (scope_spawnsAlone scope) h
  exact ⟨fun fd => hruns.closeStdin_ends, fun fd => hruns.stdout_ends⟩

private theorem performs_of_foldlM {calls : List CoprocessCall}
    (h : calls.foldlM (fun s call => s.perform limit false call) s = some s') : Performs limit s calls s' := by
  induction calls generalizing s with
  | nil =>
    cases h
    exact .nil
  | cons call calls ih =>
    rw [List.foldlM_cons] at h
    obtain ⟨s'', hcall, hrest⟩ := Option.bind_eq_some_iff.mp h
    exact .cons hcall (ih hrest)

/-- `git check-attr`, with three standard streams, `git ls-files` and two children of one object that
are done. -/
theorem scope_ends_checkAttr : ∃ s : Coprocesses Unit, s.children.map Prod.fst = [2, 0, 2, 1] ∧
    (s.object 1).fd .stdin .writer = some 5 ∧
      ¬ Holds (s.closeStdin 1).parent (.writer ((s.object 1).pipe .stdin)) ∧
      (∀ child ∈ (s.closeStdin 1).children, ¬ Holds child.2 (.writer ((s.object 1).pipe .stdin))) ∧
      ¬ Holds s.parent (.writer ((s.object 1).pipe .stdout)) := by
  have hrun : (((CoprocessScope.getEncryptedFiles true true 0).calls.take 11).foldlM
      (fun (s : Coprocesses Unit) call => s.perform 8 false call)
        (start fun fd => if fd < 3 then some () else none)).map
        (fun s => (s.children.map Prod.fst, (s.object 1).fd .stdin .writer,
          ((s.object 1).fd .stdout .reader).isSome, (s.object 1).fd .stdout .writer)) =
      some ([2, 0, 2, 1], some 5, true, none) := by decide +kernel
  obtain ⟨s, hs, hfacts⟩ := Option.map_eq_some_iff.mp hrun
  obtain ⟨hchildren, hfacts⟩ := Prod.mk.inj hfacts
  obtain ⟨hstdin, hfacts⟩ := Prod.mk.inj hfacts
  obtain ⟨hreader, hwriter⟩ := Prod.mk.inj hfacts
  obtain ⟨fd, hfd⟩ := Option.isSome_iff_exists.mp hreader
  have hends := scope_ends _ 8 _ 11 (performs_of_foldlM hs) 1
  exact ⟨s, hchildren, hstdin, (hends.1 5 hstdin).1, (hends.1 5 hstdin).2, (hends.2 fd hfd hwriter).1⟩

end Coprocesses
end GitCrypt
