import GitCrypt.Library.Descriptors

/-! The class `Coprocess` on Unix: the descriptors of its pipes, in the program and in the
children that it forks. -/
namespace GitCrypt
open Posix

inductive Channel where
  | stdin
  | stdout
  deriving DecidableEq

inductive End where
  | reader
  | writer
  deriving DecidableEq

def End.file {φ : Type} (pipe : Nat) : End → OpenFile φ
  | reader => .reader pipe
  | writer => .writer pipe

/-- The members of a `Coprocess`: `stdin_pipe_reader` is `fd .stdin .reader`, and so on, with none for
-1, and `stream` tells whether the pointer to the stream of a channel is set. `pipe`, the number of
the pipe of a channel, is not in the source. -/
structure Coprocess where
  fd : Channel → End → Option Nat := fun _ _ => none
  stream : Channel → Bool := fun _ => false
  pipe : Channel → Nat := fun _ => 0

/-- What a `close` that the program has called has closed: the object that called it, the member
with the number of its pipe, and what the descriptor was open on. -/
structure Closing (φ : Type) where
  object : Nat
  channel : Channel
  side : End
  pipe : Nat
  found : Option (OpenFile φ)

/-- The program with its objects, the descriptors with which each child of an object calls `execvp`,
and the calls of `close`, oldest first. -/
structure Coprocesses (φ : Type) where
  parent : Descriptors φ
  pipes : Nat := 0
  object : Nat → Coprocess := fun _ => {}
  children : List (Nat × Descriptors φ) := []
  closings : List (Closing φ) := []

namespace Coprocesses
variable {φ : Type}

/-- The program before it has made an object, with the files that it was given. -/
def start (files : Nat → Option φ) : Coprocesses φ := { parent := fun fd => (files fd).map .inherited }

def update (s : Coprocesses φ) (i : Nat) (c : Coprocess) : Coprocesses φ :=
  { s with object := Function.update s.object i c }

/-- `if (fd != -1) { close(fd); fd = -1; }` -/
def closeEnd (s : Coprocesses φ) (i : Nat) (ch : Channel) (e : End) : Coprocesses φ :=
  match (s.object i).fd ch e with
  | none => s
  | some fd =>
    let c := s.object i
    { s.update i { c with fd := Function.update c.fd ch (Function.update (c.fd ch) e none) } with
      parent := s.parent.close fd
      closings := s.closings ++ [⟨i, ch, e, c.pipe ch, s.parent fd⟩] }

/-- `fds[0]` and `fds[1]` -/
def pipeEnds (reader writer : Nat) : End → Option Nat
  | .reader => some reader
  | .writer => some writer

/-- What `stdin_pipe` and `stdout_pipe` share; none where they throw. -/
def openPipe (limit : Nat) (fails : Bool) (i : Nat) (ch : Channel) (s : Coprocesses φ) : Option (Coprocesses φ) :=
  let c := s.object i
  if c.stream ch then some s
  else if fails then none
  else match s.parent.pipe limit s.pipes with
    | none => none
    | some (reader, writer, parent) =>
      some { s.update i { c with
          fd := Function.update c.fd ch (pipeEnds reader writer)
          stream := Function.update c.stream ch true
          pipe := Function.update c.pipe ch s.pipes } with
        parent
        pipes := s.pipes + 1 }

def stdinPipe (limit : Nat) (fails : Bool) (i : Nat) : Coprocesses φ → Option (Coprocesses φ) :=
  openPipe limit fails i .stdin

def stdoutPipe (limit : Nat) (fails : Bool) (i : Nat) : Coprocesses φ → Option (Coprocesses φ) :=
  openPipe limit fails i .stdout

/-- The pointer to the stream is set to null. -/
def unsetStream (s : Coprocesses φ) (i : Nat) (ch : Channel) : Coprocesses φ :=
  s.update i { s.object i with stream := Function.update (s.object i).stream ch false }

/-- What `close_stdin` and `close_stdout` share. -/
def closePipe (i : Nat) (ch : Channel) (s : Coprocesses φ) : Coprocesses φ :=
  ((s.unsetStream i ch).closeEnd i ch .writer).closeEnd i ch .reader

def closeStdin (i : Nat) : Coprocesses φ → Coprocesses φ := closePipe i .stdin

def closeStdout (i : Nat) : Coprocesses φ → Coprocesses φ := closePipe i .stdout

end Coprocesses

/-- `if (fd != -1) close(fd);` -/
def closeFd {φ : Type} (fd : Option Nat) (t : Descriptors φ) : Descriptors φ :=
  match fd with
  | none => t
  | some fd => t.close fd

/-- `if (fd != -1) { dup2(fd, standard); close(fd); }` -/
def moveFd {φ : Type} (fd : Option Nat) (standard : Nat) (t : Descriptors φ) : Descriptors φ :=
  match fd with
  | none => t
  | some fd => (t.dup2 fd standard).close fd

/-- The descriptors of the child when it calls `execvp`. -/
def Coprocess.childTable {φ : Type} (c : Coprocess) (t : Descriptors φ) : Descriptors φ :=
  let t := closeFd (c.fd .stdin .writer) t
  let t := closeFd (c.fd .stdout .reader) t
  let t := moveFd (c.fd .stdin .reader) 0 t
  moveFd (c.fd .stdout .writer) 1 t

namespace Coprocesses
variable {φ : Type}

/-- A child of the object, as it calls `execvp`. -/
def fork (s : Coprocesses φ) (i : Nat) : Coprocesses φ :=
  { s with children := s.children ++ [(i, (s.object i).childTable s.parent)] }

/-- `spawn`; none where `fork` fails. -/
def spawn (fails : Bool) (i : Nat) (s : Coprocesses φ) : Option (Coprocesses φ) :=
  if fails then none else some (((s.fork i).closeEnd i .stdin .reader).closeEnd i .stdout .writer)

end Coprocesses

/-- The member functions that touch descriptors, each with the object it is called on. -/
inductive CoprocessCall where
  | stdinPipe (i : Nat)
  | stdoutPipe (i : Nat)
  | spawn (i : Nat)
  | closeStdin (i : Nat)
  | closeStdout (i : Nat)
  /-- `~Coprocess` -/
  | destroy (i : Nat)
  deriving DecidableEq

/-- The object a call is made on. -/
def CoprocessCall.object : CoprocessCall → Nat
  | stdinPipe i | stdoutPipe i | spawn i | closeStdin i | closeStdout i | destroy i => i

namespace Coprocesses
variable {φ : Type}

/-- A call, with whether its system call fails; none where it throws. -/
def perform (limit : Nat) (fails : Bool) (s : Coprocesses φ) : CoprocessCall → Option (Coprocesses φ)
  | .stdinPipe i => s.stdinPipe limit fails i
  | .stdoutPipe i => s.stdoutPipe limit fails i
  | .spawn i => s.spawn fails i
  | .closeStdin i => some (s.closeStdin i)
  | .closeStdout i => some (s.closeStdout i)
  | .destroy i => some ((s.closeStdin i).closeStdout i)

/-- What any calls come to, one after the other. One that throws leaves everything as it is. -/
def performAll (limit : Nat) (s : Coprocesses φ) : List (CoprocessCall × Bool) → Coprocesses φ
  | [] => s
  | (call, fails) :: calls => performAll limit ((s.perform limit fails call).getD s) calls

/-! ### What a member function changes -/

section
variable (s : Coprocesses φ) (i j : Nat) (ch ch' : Channel) (e e' : End)

theorem closeEnd_fd : ((s.closeEnd i ch e).object j).fd ch' e' =
    if j = i ∧ ch' = ch ∧ e' = e then none else (s.object j).fd ch' e' := by
  unfold closeEnd
  split
  · rename_i hnone
    split_ifs with h
    · rw [h.1, h.2.1, h.2.2, hnone]
    · rfl
  · rename_i fd hfd
    by_cases hj : j = i
    · subst hj
      by_cases hch : ch' = ch
      · subst hch
        by_cases he : e' = e
        · subst he
          simp [update]
        · simp [update, he]
      · simp [update, hch]
    · simp [update, hj]

@[simp] theorem closeEnd_pipe : ((s.closeEnd i ch e).object j).pipe = (s.object j).pipe := by
  unfold closeEnd
  split
  · rfl
  · by_cases hj : j = i
    · subst hj
      simp [update]
    · simp [update, hj]

@[simp] theorem closeEnd_stream : ((s.closeEnd i ch e).object j).stream = (s.object j).stream := by
  unfold closeEnd
  split
  · rfl
  · by_cases hj : j = i
    · subst hj
      simp [update]
    · simp [update, hj]

@[simp] theorem closeEnd_pipes : (s.closeEnd i ch e).pipes = s.pipes := by
  unfold closeEnd
  split <;> rfl

@[simp] theorem closeEnd_children : (s.closeEnd i ch e).children = s.children := by
  unfold closeEnd
  split <;> rfl

theorem closeEnd_parent : (s.closeEnd i ch e).parent = closeFd ((s.object i).fd ch e) s.parent := by
  unfold closeEnd closeFd
  cases (s.object i).fd ch e <;> rfl

private theorem closeEnd_closings : (s.closeEnd i ch e).closings =
    s.closings ++ ((s.object i).fd ch e).toList.map fun fd => ⟨i, ch, e, (s.object i).pipe ch, s.parent fd⟩ := by
  unfold closeEnd
  cases (s.object i).fd ch e with
  | none => exact (List.append_nil _).symm
  | some fd => rfl

end

/-! ### Whose descriptors they are -/

/-- What the program has open is what it was given and, apart from that, one descriptor for each
member that is set, on its end of the pipe of its channel. -/
structure Accounted (files : Nat → Option φ) (s : Coprocesses φ) : Prop where
  held : ∀ {i ch e fd}, (s.object i).fd ch e = some fd →
    files fd = none ∧ s.parent fd = some (e.file ((s.object i).pipe ch))
  others : ∀ {fd}, (∀ i ch e, (s.object i).fd ch e ≠ some fd) → s.parent fd = (files fd).map .inherited
  older : ∀ {i ch e fd}, (s.object i).fd ch e = some fd → (s.object i).pipe ch < s.pipes
  apart : ∀ {i ch e fd j ch' e' fd'}, (s.object i).fd ch e = some fd → (s.object j).fd ch' e' = some fd' →
    (s.object i).pipe ch = (s.object j).pipe ch' → i = j ∧ ch = ch'

variable {files : Nat → Option φ} {s s' : Coprocesses φ} {i j : Nat} {ch ch' : Channel} {e e' : End} {fd : Nat}

theorem accounted_start (files : Nat → Option φ) : Accounted files (start files) where
  held := fun h => by cases h
  others := fun _ => rfl
  older := fun h => by cases h
  apart := fun h => by cases h

private theorem file_inj {pipe pipe' : Nat} (h : (e.file pipe : OpenFile φ) = e'.file pipe') :
    e = e' ∧ pipe = pipe' := by
  cases e <;> cases e' <;> simp_all [End.file]

theorem Accounted.unique (h : Accounted files s) (hi : (s.object i).fd ch e = some fd)
    (hj : (s.object j).fd ch' e' = some fd) : i = j ∧ ch = ch' ∧ e = e' := by
  have hfile := (h.held hi).2.symm.trans (h.held hj).2
  obtain ⟨he, hpipe⟩ := file_inj (Option.some.inj hfile)
  obtain ⟨hij, hch⟩ := h.apart hi hj hpipe
  exact ⟨hij, hch, he⟩

theorem Accounted.closeEnd (h : Accounted files s) (i : Nat) (ch : Channel) (e : End) :
    Accounted files (s.closeEnd i ch e) := by
  have hkept {j ch' e' fd'} (hfd' : ((s.closeEnd i ch e).object j).fd ch' e' = some fd') :
      (s.object j).fd ch' e' = some fd' ∧ ¬ (j = i ∧ ch' = ch ∧ e' = e) := by
    rw [closeEnd_fd] at hfd'
    split_ifs at hfd' with hsame
    exact ⟨hfd', hsame⟩
  constructor
  · intro j ch' e' fd' hfd'
    obtain ⟨hfd', hother⟩ := hkept hfd'
    refine ⟨(h.held hfd').1, ?_⟩
    rw [closeEnd_parent, closeEnd_pipe]
    cases hfd : (s.object i).fd ch e with
    | none => exact (h.held hfd').2
    | some fd =>
      have hne : fd' ≠ fd := by
        rintro rfl
        exact hother (h.unique hfd' hfd)
      rw [closeFd, Descriptors.close, Function.update_of_ne hne]
      exact (h.held hfd').2
  · intro fd' hnone
    have hnone' : (s.object i).fd ch e ≠ some fd' → ∀ j ch' e', (s.object j).fd ch' e' ≠ some fd' := by
      intro hne j ch' e' hfd'
      refine hnone j ch' e' ?_
      rw [closeEnd_fd, if_neg]
      · exact hfd'
      · rintro ⟨rfl, rfl, rfl⟩
        exact hne hfd'
    rw [closeEnd_parent]
    cases hfd : (s.object i).fd ch e with
    | none => exact h.others (hnone' (by rw [hfd]; exact fun hs => by cases hs))
    | some fd =>
      by_cases he : fd' = fd
      · subst he
        rw [closeFd, Descriptors.close, Function.update_self, (h.held hfd).1]
        rfl
      · rw [closeFd, Descriptors.close, Function.update_of_ne he]
        refine h.others (hnone' ?_)
        rw [hfd]
        exact fun hs => he (Option.some.inj hs).symm
  · intro j ch' e' fd' hfd'
    rw [closeEnd_pipe, closeEnd_pipes]
    exact h.older (hkept hfd').1
  · intro j ch' e' fd' k ch'' e'' fd'' hj hk hpipe
    rw [closeEnd_pipe, closeEnd_pipe] at hpipe
    exact h.apart (hkept hj).1 (hkept hk).1 hpipe

/-- A channel whose stream is not set has no descriptors. -/
def Unset (s : Coprocesses φ) : Prop := ∀ i ch, (s.object i).stream ch = false → ∀ e, (s.object i).fd ch e = none

theorem Unset.closeEnd (h : s.Unset) (i : Nat) (ch : Channel) (e : End) : (s.closeEnd i ch e).Unset := by
  intro j ch' hstream e'
  rw [closeEnd_stream] at hstream
  rw [closeEnd_fd, h j ch' hstream e', ite_self]

/-- The fields of a call to `pipe` that succeeds. -/
theorem openPipe_some {limit : Nat} {fails : Bool} (h : s.openPipe limit fails i ch = some s') :
    s' = s ∧ (s.object i).stream ch = true ∨ (s.object i).stream ch = false ∧ ∃ reader writer parent,
      s.parent.pipe limit s.pipes = some (reader, writer, parent) ∧ s'.parent = parent ∧ s'.pipes = s.pipes + 1 ∧
      s'.children = s.children ∧ s'.closings = s.closings ∧ (∀ j ch', (s'.object j).fd ch' =
        if j = i ∧ ch' = ch then pipeEnds reader writer else (s.object j).fd ch') ∧
      (∀ j ch', (s'.object j).pipe ch' = if j = i ∧ ch' = ch then s.pipes else (s.object j).pipe ch') ∧
      ∀ j ch', (s'.object j).stream ch' = if j = i ∧ ch' = ch then true else (s.object j).stream ch' := by
  unfold openPipe at h
  dsimp only at h
  split_ifs at h with hstream hfails
  · cases h
    exact .inl ⟨rfl, hstream⟩
  · split at h
    · cases h
    · rename_i reader writer parent hpipe
      cases h
      refine .inr ⟨by simpa using hstream, reader, writer, parent, hpipe, rfl, rfl, rfl, rfl, ?_, ?_, ?_⟩
      all_goals
        intro j ch'
        by_cases hj : j = i
        · subst hj
          by_cases hch : ch' = ch
          · subst hch
            simp [update]
          · simp [update, hch]
        · simp [update, hj]

/-- A descriptor that is not open was not given to the program and is not a member's. -/
theorem Accounted.free (h : Accounted files s) (hfree : s.parent fd = none) :
    files fd = none ∧ ∀ i ch e, (s.object i).fd ch e ≠ some fd := by
  have hnobody : ∀ i ch e, (s.object i).fd ch e ≠ some fd := by
    intro i ch e hfd
    rw [(h.held hfd).2] at hfree
    cases hfree
  have hfiles := h.others hnobody
  rw [hfree] at hfiles
  exact ⟨by simpa using hfiles.symm, hnobody⟩

theorem Accounted.openPipe {limit : Nat} {fails : Bool} (h : Accounted files s) (hunset : s.Unset)
    (hopen : s.openPipe limit fails i ch = some s') : Accounted files s' := by
  rcases openPipe_some hopen with
    ⟨rfl, -⟩ | ⟨hstream, reader, writer, parent, hpipe, hparent, hpipes, -, -, hfd, hnumber, -⟩
  · exact h
  obtain ⟨hr, hw, hne, rfl⟩ := Descriptors.pipe_spec hpipe
  have hnew (e : End) : (s'.object i).fd ch e = pipeEnds reader writer e := by rw [hfd, if_pos ⟨rfl, rfl⟩]
  have hold {j ch' e' fd'} (hother : ¬ (j = i ∧ ch' = ch)) (hfd' : (s'.object j).fd ch' e' = some fd') :
      (s.object j).fd ch' e' = some fd' ∧ fd' ≠ reader ∧ fd' ≠ writer := by
    rw [hfd, if_neg hother] at hfd'
    refine ⟨hfd', ?_, ?_⟩
    · rintro rfl
      exact (h.free hr).2 _ _ _ hfd'
    · rintro rfl
      exact (h.free hw).2 _ _ _ hfd'
  constructor
  · intro j ch' e' fd' hfd'
    rw [hparent, hnumber]
    by_cases hsame : j = i ∧ ch' = ch
    · obtain ⟨rfl, rfl⟩ := hsame
      rw [if_pos ⟨rfl, rfl⟩]
      rw [hnew] at hfd'
      cases e' with
      | reader =>
        cases hfd'
        exact ⟨(h.free hr).1, by rw [Function.update_of_ne hne.symm, Function.update_self]; rfl⟩
      | writer =>
        cases hfd'
        exact ⟨(h.free hw).1, Function.update_self ..⟩
    · obtain ⟨hfd', hner, hnew'⟩ := hold hsame hfd'
      rw [if_neg hsame, Function.update_of_ne hnew', Function.update_of_ne hner]
      exact h.held hfd'
  · intro fd' hnone
    have hner : fd' ≠ reader := by
      rintro rfl
      exact hnone i ch .reader (hnew .reader)
    have hnew' : fd' ≠ writer := by
      rintro rfl
      exact hnone i ch .writer (hnew .writer)
    rw [hparent, Function.update_of_ne hnew', Function.update_of_ne hner]
    refine h.others fun j ch' e' hfd' => ?_
    by_cases hsame : j = i ∧ ch' = ch
    · obtain ⟨rfl, rfl⟩ := hsame
      rw [hunset _ _ hstream] at hfd'
      cases hfd'
    · exact hnone j ch' e' (by rw [hfd, if_neg hsame]; exact hfd')
  · intro j ch' e' fd' hfd'
    rw [hnumber, hpipes]
    split_ifs with hsame
    · exact Nat.lt_succ_self _
    · exact Nat.lt_succ_of_lt (h.older (hold hsame hfd').1)
  · intro j ch' e' fd' k ch'' e'' fd'' hj hk hpipe'
    rw [hnumber, hnumber] at hpipe'
    split_ifs at hpipe' with hsame hsame' hsame'
    · exact ⟨hsame.1.trans hsame'.1.symm, hsame.2.trans hsame'.2.symm⟩
    · exact absurd hpipe'.symm (Nat.ne_of_lt (h.older (hold hsame' hk).1))
    · exact absurd hpipe' (Nat.ne_of_lt (h.older (hold hsame hj).1))
    · exact h.apart (hold hsame hj).1 (hold hsame' hk).1 hpipe'

theorem Unset.openPipe {limit : Nat} {fails : Bool} (h : s.Unset) (hopen : s.openPipe limit fails i ch = some s') :
    s'.Unset := by
  rcases openPipe_some hopen with ⟨rfl, -⟩ | ⟨-, reader, writer, parent, -, -, -, -, -, hfd, -, hstream⟩
  · exact h
  intro j ch' hunset e'
  rw [hstream] at hunset
  split_ifs at hunset with hsame
  rw [hfd, if_neg hsame]
  exact h j ch' hunset e'

/-! ### Runs -/

theorem Accounted.congr (h : Accounted files s) (hfd : ∀ j, (s'.object j).fd = (s.object j).fd)
    (hnumber : ∀ j, (s'.object j).pipe = (s.object j).pipe) (hparent : s'.parent = s.parent)
    (hpipes : s'.pipes = s.pipes) : Accounted files s' := by
  constructor
  · intro j ch e fd hj
    rw [hfd] at hj
    rw [hparent, hnumber]
    exact h.held hj
  · intro fd hnone
    rw [hparent]
    exact h.others fun j ch e hj => hnone j ch e (by rw [hfd]; exact hj)
  · intro j ch e fd hj
    rw [hfd] at hj
    rw [hnumber, hpipes]
    exact h.older hj
  · intro j ch e fd k ch' e' fd' hj hk hpipe
    rw [hfd] at hj hk
    rw [hnumber, hnumber] at hpipe
    exact h.apart hj hk hpipe

theorem unsetStream_fd (s : Coprocesses φ) (i j : Nat) (ch : Channel) :
    ((s.unsetStream i ch).object j).fd = (s.object j).fd := by
  by_cases hj : j = i
  · subst hj
    simp [unsetStream, update]
  · simp [unsetStream, update, hj]

theorem unsetStream_pipe (s : Coprocesses φ) (i j : Nat) (ch : Channel) :
    ((s.unsetStream i ch).object j).pipe = (s.object j).pipe := by
  by_cases hj : j = i
  · subst hj
    simp [unsetStream, update]
  · simp [unsetStream, update, hj]

private theorem unsetStream_stream (s : Coprocesses φ) (i j : Nat) (ch ch' : Channel) :
    ((s.unsetStream i ch).object j).stream ch' = if j = i ∧ ch' = ch then false else (s.object j).stream ch' := by
  by_cases hj : j = i
  · subst hj
    by_cases hch : ch' = ch
    · subst hch
      simp [unsetStream, update]
    · simp [unsetStream, update, hch]
  · simp [unsetStream, update, hj]

theorem closePipe_fd (s : Coprocesses φ) (i j : Nat) (ch ch' : Channel) (e : End) :
    ((s.closePipe i ch).object j).fd ch' e = if j = i ∧ ch' = ch then none else (s.object j).fd ch' e := by
  rw [closePipe, closeEnd_fd, closeEnd_fd, unsetStream_fd]
  by_cases hsame : j = i ∧ ch' = ch
  · cases e <;> simp [hsame]
  · cases e <;> simp_all

theorem Accounted.closePipe (h : Accounted files s) (i : Nat) (ch : Channel) : Accounted files (s.closePipe i ch) :=
  ((h.congr (fun j => unsetStream_fd s i j ch) (fun j => unsetStream_pipe s i j ch) rfl rfl).closeEnd i ch
    .writer).closeEnd i ch .reader

theorem Unset.closePipe (h : s.Unset) (i : Nat) (ch : Channel) : (s.closePipe i ch).Unset := by
  intro j ch' hstream e
  rw [closePipe_fd]
  split_ifs with hsame
  · rfl
  · rw [Coprocesses.closePipe, closeEnd_stream, closeEnd_stream, unsetStream_stream, if_neg hsame] at hstream
    exact h j ch' hstream e

theorem spawn_some {fails : Bool} (h : s.spawn fails i = some s') :
    s' = ((s.fork i).closeEnd i .stdin .reader).closeEnd i .stdout .writer := by
  unfold spawn at h
  split_ifs at h
  exact (Option.some.inj h).symm

/-- What `spawn` leaves: the program keeps of the pipes of the object the ends that are its own. -/
theorem spawn_fields {fails : Bool} (h : s.spawn fails i = some s') :
    s'.children = s.children ++ [(i, (s.object i).childTable s.parent)] ∧ s'.pipes = s.pipes ∧
      (∀ j, (s'.object j).pipe = (s.object j).pipe) ∧
      (∀ j ch e, (s'.object j).fd ch e =
        if j = i ∧ (ch = .stdin ∧ e = .reader ∨ ch = .stdout ∧ e = .writer) then none else (s.object j).fd ch e) := by
  rw [spawn_some h]
  refine ⟨?_, ?_, fun j => ?_, fun j ch e => ?_⟩
  · rw [closeEnd_children, closeEnd_children]
    rfl
  · rw [closeEnd_pipes, closeEnd_pipes]
    rfl
  · rw [closeEnd_pipe, closeEnd_pipe]
    rfl
  · rw [closeEnd_fd, closeEnd_fd]
    by_cases hj : j = i
    · cases ch <;> cases e <;> simp [hj, fork]
    · simp [hj, fork]

/-- The books are kept by every call. -/
theorem Accounted.perform {limit : Nat} {fails : Bool} {call : CoprocessCall} (h : Accounted files s)
    (hunset : s.Unset) (hcall : s.perform limit fails call = some s') : Accounted files s' ∧ s'.Unset := by
  cases call with
  | stdinPipe i => exact ⟨h.openPipe hunset hcall, hunset.openPipe hcall⟩
  | stdoutPipe i => exact ⟨h.openPipe hunset hcall, hunset.openPipe hcall⟩
  | spawn i =>
    rw [spawn_some hcall]
    have hforked : Accounted files (s.fork i) := h.congr (fun _ => rfl) (fun _ => rfl) rfl rfl
    have hunset' : (s.fork i).Unset := hunset
    exact ⟨(hforked.closeEnd i .stdin .reader).closeEnd i .stdout .writer,
      (hunset'.closeEnd i .stdin .reader).closeEnd i .stdout .writer⟩
  | closeStdin i =>
    cases hcall
    exact ⟨h.closePipe i .stdin, hunset.closePipe i .stdin⟩
  | closeStdout i =>
    cases hcall
    exact ⟨h.closePipe i .stdout, hunset.closePipe i .stdout⟩
  | destroy i =>
    cases hcall
    exact ⟨(h.closePipe i .stdin).closePipe i .stdout, (hunset.closePipe i .stdin).closePipe i .stdout⟩

theorem Accounted.performAll {limit : Nat} {calls : List (CoprocessCall × Bool)} (h : Accounted files s)
    (hunset : s.Unset) : Accounted files (s.performAll limit calls) ∧ (s.performAll limit calls).Unset := by
  induction calls generalizing s with
  | nil => exact ⟨h, hunset⟩
  | cons call calls ih =>
    rw [Coprocesses.performAll]
    cases hcall : s.perform limit call.2 call.1 with
    | none => exact ih h hunset
    | some s' => exact ih (h.perform hunset hcall).1 (h.perform hunset hcall).2

theorem unset_start (files : Nat → Option φ) : (start files).Unset := fun _ _ _ _ => rfl

/-! ### What is closed -/

/-- Every `close` was of the end of the pipe that its member stood for, and no end was closed twice:
where the pipe of a member is one of which an end was closed, it is of the same object and channel,
and the member is the other end. -/
structure Closed (s : Coprocesses φ) : Prop where
  own : ∀ c ∈ s.closings, c.found = some (c.side.file c.pipe)
  older : ∀ c ∈ s.closings, c.pipe < s.pipes
  kept : ∀ c ∈ s.closings, ∀ {i ch e fd}, (s.object i).fd ch e = some fd → c.pipe = (s.object i).pipe ch →
    c.object = i ∧ c.channel = ch ∧ c.side ≠ e
  once : s.closings.Pairwise fun c c' =>
    c.pipe = c'.pipe → c.object = c'.object ∧ c.channel = c'.channel ∧ c.side ≠ c'.side

private theorem closed_start (files : Nat → Option φ) : (start files).Closed where
  own := fun _ h => by cases h
  older := fun _ h => by cases h
  kept := fun _ h => by cases h
  once := .nil

theorem Closed.congr (h : s.Closed) (hfd : ∀ j, (s'.object j).fd = (s.object j).fd)
    (hnumber : ∀ j, (s'.object j).pipe = (s.object j).pipe) (hpipes : s'.pipes = s.pipes)
    (hclosings : s'.closings = s.closings) : s'.Closed := by
  constructor
  · rw [hclosings]
    exact h.own
  · rw [hclosings, hpipes]
    exact h.older
  · intro c hc j ch e fd hj
    rw [hclosings] at hc
    rw [hfd] at hj
    rw [hnumber]
    exact h.kept c hc hj
  · rw [hclosings]
    exact h.once

theorem Closed.closeEnd (h : s.Closed) (haccounted : Accounted files s) (i : Nat) (ch : Channel) (e : End) :
    (s.closeEnd i ch e).Closed := by
  cases hfd : (s.object i).fd ch e with
  | none =>
    have hsame : s.closeEnd i ch e = s := by rw [Coprocesses.closeEnd, hfd]
    rwa [hsame]
  | some fd =>
    have hclosings := closeEnd_closings s i ch e
    rw [hfd, Option.toList_some, List.map_singleton] at hclosings
    have hcases {c : Closing φ} (hc : c ∈ (s.closeEnd i ch e).closings) :
        c ∈ s.closings ∨ c = ⟨i, ch, e, (s.object i).pipe ch, s.parent fd⟩ := by
      rw [hclosings] at hc
      simpa using hc
    constructor
    · intro c hc
      rcases hcases hc with hc | rfl
      · exact h.own c hc
      · exact (haccounted.held hfd).2
    · intro c hc
      rw [closeEnd_pipes]
      rcases hcases hc with hc | rfl
      · exact h.older c hc
      · exact haccounted.older hfd
    · intro c hc j ch' e' fd' hj hpipe
      rw [closeEnd_fd] at hj
      rw [closeEnd_pipe] at hpipe
      split_ifs at hj with hother
      rcases hcases hc with hc | rfl
      · exact h.kept c hc hj hpipe
      · obtain ⟨rfl, rfl⟩ := haccounted.apart hfd hj hpipe
        exact ⟨rfl, rfl, fun he => hother ⟨rfl, rfl, he.symm⟩⟩
    · rw [hclosings]
      refine List.pairwise_append.mpr ⟨h.once, List.pairwise_singleton _ _, fun c hc c' hc' hpipe => ?_⟩
      obtain rfl := List.mem_singleton.mp hc'
      exact h.kept c hc hfd hpipe

theorem Closed.openPipe {limit : Nat} {fails : Bool} (h : s.Closed) (hopen : s.openPipe limit fails i ch = some s') :
    s'.Closed := by
  rcases openPipe_some hopen with
    ⟨rfl, -⟩ | ⟨-, reader, writer, parent, -, -, hpipes, -, hclosings, hfd, hnumber, -⟩
  · exact h
  constructor
  · rw [hclosings]
    exact h.own
  · rw [hclosings, hpipes]
    exact fun c hc => Nat.lt_succ_of_lt (h.older c hc)
  · intro c hc j ch' e' fd' hj hpipe
    rw [hclosings] at hc
    rw [hfd] at hj
    rw [hnumber] at hpipe
    -- a new pipe has a number of its own
    split_ifs at hj hpipe with hsame
    · exact absurd hpipe (Nat.ne_of_lt (h.older c hc))
    · exact h.kept c hc hj hpipe
  · rw [hclosings]
    exact h.once

theorem Closed.closePipe (h : s.Closed) (haccounted : Accounted files s) (i : Nat) (ch : Channel) :
    (s.closePipe i ch).Closed := by
  have hunset : Accounted files (s.unsetStream i ch) :=
    haccounted.congr (fun j => unsetStream_fd s i j ch) (fun j => unsetStream_pipe s i j ch) rfl rfl
  have hclosed : (s.unsetStream i ch).Closed :=
    h.congr (fun j => unsetStream_fd s i j ch) (fun j => unsetStream_pipe s i j ch) rfl rfl
  exact (hclosed.closeEnd hunset i ch .writer).closeEnd (hunset.closeEnd i ch .writer) i ch .reader

theorem Closed.perform {limit : Nat} {fails : Bool} {call : CoprocessCall} (h : s.Closed)
    (haccounted : Accounted files s) (hcall : s.perform limit fails call = some s') : s'.Closed := by
  cases call with
  | stdinPipe i => exact h.openPipe hcall
  | stdoutPipe i => exact h.openPipe hcall
  | spawn i =>
    rw [spawn_some hcall]
    have hforked : Accounted files (s.fork i) := haccounted.congr (fun _ => rfl) (fun _ => rfl) rfl rfl
    have hclosed : (s.fork i).Closed := h.congr (fun _ => rfl) (fun _ => rfl) rfl rfl
    exact (hclosed.closeEnd hforked i .stdin .reader).closeEnd (hforked.closeEnd i .stdin .reader) i .stdout .writer
  | closeStdin i =>
    cases hcall
    exact h.closePipe haccounted i .stdin
  | closeStdout i =>
    cases hcall
    exact h.closePipe haccounted i .stdout
  | destroy i =>
    cases hcall
    exact (h.closePipe haccounted i .stdin).closePipe (haccounted.closePipe i .stdin) i .stdout

theorem Closed.performAll {limit : Nat} {calls : List (CoprocessCall × Bool)} (h : s.Closed)
    (haccounted : Accounted files s) (hunset : s.Unset) : (s.performAll limit calls).Closed := by
  induction calls generalizing s with
  | nil => exact h
  | cons call calls ih =>
    rw [Coprocesses.performAll]
    cases hcall : s.perform limit call.2 call.1 with
    | none => exact ih h haccounted hunset
    | some s' =>
      obtain ⟨haccounted', hunset'⟩ := haccounted.perform hunset hcall
      exact ih (h.perform haccounted hcall) haccounted' hunset'

/-! ### Nothing is left open -/

/-- A call touches the members of its own object only. -/
private theorem perform_fd_of_ne {limit : Nat} {fails : Bool} {call : CoprocessCall}
    (hcall : s.perform limit fails call = some s')
    (hj : j ≠ call.object) : (s'.object j).fd = (s.object j).fd := by
  have hother {i : Nat} {ch ch' : Channel} (hne : j ≠ i) : ¬ (j = i ∧ ch' = ch) := fun h => hne h.1
  have hpipe {i : Nat} {ch : Channel} (hne : j ≠ i) (hopen : s.openPipe limit fails i ch = some s') :
      (s'.object j).fd = (s.object j).fd := by
    rcases openPipe_some hopen with ⟨rfl, -⟩ | ⟨-, reader, writer, parent, -, -, -, -, -, hfd, -, -⟩
    · rfl
    · funext ch'
      rw [hfd, if_neg (hother hne)]
  have hclose (s : Coprocesses φ) {i : Nat} (ch : Channel) (hne : j ≠ i) :
      ((s.closePipe i ch).object j).fd = (s.object j).fd := by
    funext ch' e
    rw [closePipe_fd, if_neg (hother hne)]
  cases call with
  | stdinPipe i => exact hpipe hj hcall
  | stdoutPipe i => exact hpipe hj hcall
  | spawn i =>
    have hne : j ≠ i := hj
    obtain ⟨-, -, -, hfd⟩ := spawn_fields hcall
    funext ch' e
    rw [hfd, if_neg (fun h => hne h.1)]
  | closeStdin i =>
    cases hcall
    exact hclose s .stdin hj
  | closeStdout i =>
    cases hcall
    exact hclose s .stdout hj
  | destroy i =>
    cases hcall
    exact (hclose _ .stdout hj).trans (hclose s .stdin hj)

private theorem performAll_fd_of_notMem {limit : Nat} {calls : List (CoprocessCall × Bool)}
    (hj : ∀ call ∈ calls, j ≠ call.1.object) : ((s.performAll limit calls).object j).fd = (s.object j).fd := by
  induction calls generalizing s with
  | nil => rfl
  | cons call calls ih =>
    rw [List.forall_mem_cons] at hj
    rw [performAll, ih hj.2]
    cases hcall : s.perform limit call.2 call.1 with
    | none => rfl
    | some s' => exact perform_fd_of_ne hcall hj.1

/-- The destructors at the end of a scope. -/
def destructors (objects : List Nat) : List (CoprocessCall × Bool) := objects.map fun i => (.destroy i, false)

private theorem destructors_fd {limit : Nat} {objects : List Nat}
    (h : ∀ j, j ∉ objects → ∀ ch e, (s.object j).fd ch e = none) (j : Nat) (ch : Channel) (e : End) :
    ((s.performAll limit (destructors objects)).object j).fd ch e = none := by
  induction objects generalizing s with
  | nil => exact h j (by simp) ch e
  | cons i objects ih =>
    refine ih fun j hj ch e => ?_
    change ((((s.closePipe i .stdin).closePipe i .stdout).object j).fd ch e) = none
    rw [closePipe_fd, closePipe_fd]
    by_cases hi : j = i
    · cases ch <;> simp [hi]
    · rw [if_neg (fun h => hi h.1), if_neg (fun h => hi h.1)]
      exact h j (by simp [hi, hj]) ch e

private theorem performAll_append (limit : Nat) (s : Coprocesses φ) (calls calls' : List (CoprocessCall × Bool)) :
    s.performAll limit (calls ++ calls') = (s.performAll limit calls).performAll limit calls' := by
  induction calls generalizing s with
  | nil => rfl
  | cons call calls ih => exact ih _

/-- Whatever calls are made on whatever objects and whichever of them fail, what the program was given
stays open, and when the objects are gone nothing else is. Each `close` on the way there is of the end
of a pipe that its object has open, and no end is closed twice. -/
theorem performAll_destructors (files : Nat → Option φ) (limit : Nat) (calls : List (CoprocessCall × Bool))
    (objects : List Nat) (hobjects : ∀ call ∈ calls, call.1.object ∈ objects) :
    let s := (start files).performAll limit (calls ++ destructors objects)
    (∀ fd, files fd ≠ none → ((start files).performAll limit calls).parent fd = (files fd).map .inherited) ∧
      (∀ fd, s.parent fd = (files fd).map .inherited) ∧
      (∀ c ∈ s.closings, c.found = some (c.side.file c.pipe)) ∧
      s.closings.Pairwise fun c c' =>
        c.pipe = c'.pipe → c.object = c'.object ∧ c.channel = c'.channel ∧ c.side ≠ c'.side := by
  have haccounted (calls : List (CoprocessCall × Bool)) : Accounted files ((start files).performAll limit calls) :=
    ((accounted_start files).performAll (unset_start files)).1
  have hclosed : ((start files).performAll limit (calls ++ destructors objects)).Closed :=
    (closed_start files).performAll (accounted_start files) (unset_start files)
  refine ⟨fun fd hgiven => ?_, fun fd => ?_, hclosed.own, hclosed.once⟩
  · exact (haccounted calls).others fun i ch e hfd => hgiven ((haccounted calls).held hfd).1
  · refine (haccounted _).others fun j ch e => ?_
    rw [performAll_append, destructors_fd]
    · exact fun h => by cases h
    · intro j hj ch e
      rw [performAll_fd_of_notMem]
      · rfl
      · rintro call hcall rfl
        exact hj (hobjects call hcall)

/-- The object of `git check-attr`, when its second pipe fails. -/
theorem performAll_destructors_checkAttr :
    let s := (start fun fd => if fd < 3 then some () else none).performAll 8
      ([(.stdinPipe 1, false), (.stdoutPipe 1, true)] ++ destructors [1])
    s.closings.length = 2 ∧ s.parent 4 = none ∧ ∀ c ∈ s.closings, c.found = some (c.side.file c.pipe) := by
  have hrun := performAll_destructors (fun fd => if fd < 3 then some () else none) 8
    [(.stdinPipe 1, false), (.stdoutPipe 1, true)] [1] (by decide)
  exact ⟨by decide +kernel, hrun.2.1 4, hrun.2.2.1⟩

end Coprocesses
end GitCrypt
