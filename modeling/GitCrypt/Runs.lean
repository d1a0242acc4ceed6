import GitCrypt.Effects
import GitCrypt.FilterCommands

/-! Single operations run from a given world, and what is seen of a finished process. -/
namespace GitCrypt
open Iostream Posix
variable {env : Env}

/-- The standard output and the exit status of a process. -/
def outcome (m : Action Nat) (w : World) : OStream × Nat := ((m w).2.cout, exitStatus (m w).1)

theorem execCommand_run {command : Command} {w w' : World} {status : Nat} {output : Bytes}
    (hf : env.fails w.ops = false) (hrun : command.run env w = (status, output, w')) :
    execCommand env command w = (.ok (status, output), w'.note (.ran command status)) := by
  simp only [execCommand, hf, hrun, Bool.false_eq_true, if_false]

theorem syscall_fails {α : Type} {call : FileCall} {effect : FileSystem → Except Errno (α × FileSystem)} {w : World}
    (h : env.fails w.ops = true) : syscall env call effect w = (.ok (.error .eio), w.note (.called call false)) :=
  if_pos h

/-- A system call that only looks. -/
theorem syscall_query_run {α : Type} (call : FileCall) (query : FileSystem → Except Errno α) (w : World) :
    let res := if env.fails w.ops then .error .eio else query w.fs
    syscall env call (fun fs => (query fs).map (·, fs)) w = (.ok res, w.note (.called call res.isOk)) := by
  intro res
  unfold syscall
  by_cases hf : env.fails w.ops
  · rw [if_pos hf, show res = .error .eio from if_pos hf]
    rfl
  · rw [if_neg hf, show res = query w.fs from if_neg hf]
    cases hq : query w.fs with
    | error e => simp only [hq]; rfl
    | ok a => simp only [hq]; rfl

theorem readFile_run {w : World} {path b : Bytes} (h : w.fs.readFile env.cwd path = .ok b) :
    readFile env path w =
      if env.fails w.ops then (.ok none, w.note (.called (.read path) false))
      else (.ok (some b), w.note (.called (.read path) true)) := by
  change (syscall env _ _ >>= _) w = _
  rw [Prog.bind_apply, syscall, h]
  split_ifs <;> rfl

theorem loaded_of_ok {load : KeyFile × Except KeyError IStream} {kf : KeyFile} {rest : IStream}
    (h : load = (kf, .ok rest)) : loaded load = pure kf := by
  rw [h]
  rfl

theorem outcome_diffFile (P : Primitives) (kf : KeyFile) (filename : Bytes) {w w' : World}
    (hr : w.toRepo = w'.toRepo) (ho : w.ops = w'.ops) (hc : w.cout = w'.cout) :
    outcome (diffFile P env kf filename) w = outcome (diffFile P env kf filename) w' := by
  unfold outcome diffFile
  rw [Prog.bind_apply, Prog.bind_apply, syscall_query_run, syscall_query_run, hr, ho]
  generalize (if env.fails w'.ops then .error .eio else w'.fs.readFile env.cwd filename :
    Except Errno Bytes) = res
  dsimp only
  split
  · exact congrArg (fun cout => (OStream.append cout _, _)) hc
  · exact congrArg (fun cout => (cout, 1)) hc
  · exact congrArg (fun cout => (cout, 1)) hc

theorem getInternalKeyPath_run {w : World} (keyName : Option Bytes) (hf : env.fails w.ops = false) :
    getInternalKeyPath env keyName w =
      (.ok (internalKeyPath env keyName), w.note (.ran .gitRevParseGitDir 0)) := by
  have hexec := execCommand_run hf (show Command.gitRevParseGitDir.run env w = (0, env.gitDir, w) from rfl)
  unfold getInternalKeyPath getInternalKeysPath getInternalStatePath
  rw [Prog.bind_apply, Prog.bind_apply, Prog.bind_apply, hexec]
  rfl

end GitCrypt
