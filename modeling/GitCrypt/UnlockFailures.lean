import GitCrypt.FilterCommands
import GitCrypt.Queries

/-! `unlock` when its keys cannot be loaded: it ends with an error before it has changed
anything. -/
namespace GitCrypt
open Iostream Posix
variable {env : Env}

/-! ### Key files on the standard input -/

namespace KeyFile

/-- A load that succeeds has read to the end of the stream, from which nothing more is read. -/
private theorem loadEntries_ends {kf kf' : KeyFile} {input rest : IStream}
    (h : kf.loadEntries input = (kf', .ok rest)) :
    rest.good = false := by
  fun_induction loadEntries kf input with
  | case1 kf input hpeek =>
    cases h
    unfold IStream.peek at hpeek ⊢
    by_cases hgood : input.good = true
    · rw [if_pos hgood] at hpeek ⊢
      cases hrest : input.rest with
      | nil => rfl
      | cons b bytes =>
        rw [hrest] at hpeek
        cases hpeek
    · rw [if_neg hgood]
      exact Bool.and_eq_false_iff.mpr (.inr rfl)
  | case2 kf input b hpeek entry e hload => cases h
  | case3 kf input b hpeek entry input' hload ih => exact ih h

theorem load_ends {kf kf' : KeyFile} {input rest : IStream} (h : kf.load input = (kf', .ok rest)) :
    rest.good = false := by
  unfold load at h
  dsimp only at h
  split_ifs at h
  · cases h
  · cases h
  · cases h
  · split at h
    · cases h
    · exact loadEntries_ends h

theorem load_at_end (kf : KeyFile) {input : IStream} (h : input.good = false) :
    kf.load input = (kf, .error .malformed) := by
  unfold load IStream.read
  rw [if_neg (by simp [h])]
  rfl

end KeyFile

/-- The operations of `unlock` before it loads one more key file: `git status`, and opening the
files that are not the standard input. -/
def operationsBefore (before : List Bytes) : Nat := 1 + before.countP (· ≠ str "-")

/-- `unlock` has loaded the key files for some arguments. -/
structure HasLoaded (env : Env) (fs : FileSystem) (args : List Bytes) (w : World) : Prop where
  fs : w.fs = fs
  ops : w.ops = operationsBefore args
  cin : if str "-" ∈ args then w.cin.good = false else w.cin = .ofBytes env.stdin

/-- The key file that an argument of `unlock` names is loaded, after those for the arguments
before it: from the file, or from a standard input that none of them has taken. -/
def Loads (env : Env) (fs : FileSystem) (before : List Bytes) (arg : Bytes) : Prop :=
  ∃ bytes keyFile, KeyFile.loadBytes bytes = .ok keyFile ∧
    if arg = str "-" then str "-" ∉ before ∧ bytes = env.stdin
    else env.fails (operationsBefore before) = false ∧ readable env arg fs = some bytes

theorem HasLoaded.stdin {fs : FileSystem} {args : List Bytes} {w : World} (h : HasLoaded env fs args w)
    {input : IStream} (hgood : input.good = false) :
    HasLoaded env fs (args ++ [str "-"]) { w with cin := input } := by
  refine ⟨h.fs, ?_, ?_⟩
  · rw [operationsBefore, List.countP_append, List.countP_singleton, if_neg (by simp), Nat.add_zero]
    exact h.ops
  · rw [if_pos (by simp)]
    exact hgood

theorem HasLoaded.file {fs : FileSystem} {args : List Bytes} {w w' : World} (h : HasLoaded env fs args w)
    {arg : Bytes} (hdash : arg ≠ str "-") (hfs : w'.fs = w.fs) (hops : w'.ops = w.ops + 1) (hcin : w'.cin = w.cin) :
    HasLoaded env fs (args ++ [arg]) w' := by
  refine ⟨hfs.trans h.fs, ?_, ?_⟩
  · rw [hops, h.ops, operationsBefore, operationsBefore, List.countP_append, List.countP_singleton,
      if_pos (by simpa using hdash), Nat.add_assoc]
  · have hmem : str "-" ∈ args ++ [arg] ↔ str "-" ∈ args := by simp [Ne.symm hdash]
    rw [hcin]
    simpa only [hmem] using h.cin

theorem readFile_readable (path : Bytes) (w : World) :
    ∃ w', readFile env path w = (.ok (if env.fails w.ops then none else readable env path w.fs), w') ∧
      w'.fs = w.fs ∧ w'.ops = w.ops + 1 ∧ w'.cin = w.cin := by
  unfold readFile
  rw [Prog.bind_apply, syscall]
  by_cases hfails : env.fails w.ops = true
  · rw [if_pos hfails, if_pos hfails]
    exact ⟨_, rfl, rfl, rfl, rfl⟩
  · rw [if_neg hfails, if_neg hfails, readable, FileSystem.readFile]
    cases hstat : w.fs.stat env.cwd path with
    | error e =>
      rcases FileSystem.stat_error hstat with rfl | rfl
      · exact ⟨_, rfl, rfl, rfl, rfl⟩
      · exact ⟨_, rfl, rfl, rfl, rfl⟩
    | ok node =>
      cases node with
      | file bytes => exact ⟨_, rfl, rfl, rfl, rfl⟩
      | dir => exact ⟨_, rfl, rfl, rfl, rfl⟩

theorem loaded_returns (load : KeyFile × Except KeyError IStream) {P : World → Prop} {E : Exception → World → Prop}
    (hE : ∀ e w, P w → E e w) :
    Triple P (loaded load) (fun keyFile w => P w ∧ ∃ rest, load = (keyFile, .ok rest)) E := by
  unfold loaded
  split
  · exact .pure fun w hw => ⟨hw, _, rfl⟩
  · exact .throw fun w hw => hE _ w hw
  · exact .throw fun w hw => hE _ w hw

private theorem loadSymmetricKeyFile_loads {fs : FileSystem} {before : List Bytes} (arg : Bytes) :
    Triple (HasLoaded env fs before) (loadSymmetricKeyFile env arg)
      (fun res w => res.isSome = true → Loads env fs before arg ∧ HasLoaded env fs (before ++ [arg]) w)
      fun _ _ => True := by
  intro w hw
  unfold loadSymmetricKeyFile
  by_cases hdash : arg = str "-"
  · subst hdash
    rw [if_pos rfl]
    have hget (k : World → Action (Option KeyFile)) : (get >>= k) w = k w w := rfl
    rw [hget]
    rcases hload : KeyFile.empty.load w.cin with ⟨keyFile, e | rest⟩
    · cases e <;> trivial
    · -- only a standard input that was not read yet gives a key file
      have hcin := hw.cin
      have hbefore : str "-" ∉ before := by
        intro hmem
        rw [if_pos hmem] at hcin
        rw [KeyFile.load_at_end _ hcin] at hload
        cases hload
      rw [if_neg hbefore] at hcin
      have hbytes : KeyFile.loadBytes env.stdin = .ok keyFile := by
        rw [KeyFile.loadBytes, ← hcin, hload]
      refine fun _ => ⟨⟨env.stdin, keyFile, hbytes, ?_⟩, hw.stdin (KeyFile.load_ends hload)⟩
      rw [if_pos rfl]
      exact ⟨hbefore, rfl⟩
  · rw [if_neg hdash]
    obtain ⟨w₁, hread, hfs, hops, hcin⟩ := @readFile_readable env arg w
    rw [Prog.bind_of_ok hread]
    cases hcontents : (if env.fails w.ops = true then none else readable env arg w.fs) with
    | none => exact fun h => by cases h
    | some bytes =>
      obtain ⟨hfails, hreadable⟩ : env.fails w.ops = false ∧ readable env arg w.fs = some bytes := by
        split_ifs at hcontents with hfails
        exact ⟨Bool.eq_false_iff.mpr hfails, hcontents⟩
      have hloaded := Triple.bind (loaded_returns (KeyFile.empty.load (.ofBytes bytes)) fun _ _ _ => trivial)
        (Q := fun res w => res.isSome = true → Loads env fs before arg ∧ HasLoaded env fs (before ++ [arg]) w)
        (P := (· = w₁)) (E := fun _ _ => True) fun keyFile => .pure (a := some keyFile) ?_
      · exact hloaded w₁ rfl
      rintro w₂ ⟨rfl, rest, hload⟩ -
      refine ⟨⟨bytes, keyFile, KeyFile.loadBytes_of_load hload, ?_⟩, hw.file hdash hfs hops hcin⟩
      rw [if_neg hdash, ← hw.ops, ← hw.fs]
      exact ⟨hfails, hreadable⟩

private theorem readSymmetricKeyFile_loads {fs : FileSystem} {before : List Bytes} (arg : Bytes) :
    Triple (HasLoaded env fs before) (readSymmetricKeyFile env arg)
      (fun res w => res.isSome = true → Loads env fs before arg ∧ HasLoaded env fs (before ++ [arg]) w)
      fun _ _ => True := by
  refine .tryCatch (loadSymmetricKeyFile_loads arg) fun e => ?_
  have hnone (lines : List Bytes) : Triple (fun _ => True) (do logLines lines; return (none : Option KeyFile))
      (fun res w => res.isSome = true → Loads env fs before arg ∧ HasLoaded env fs (before ++ [arg]) w)
      fun _ _ => True := fun _ _ h => by cases h
  split
  · exact hnone _
  · exact hnone _
  · exact .throw fun _ _ => trivial

/-- Where `unlock` gets the key files of all its arguments, each of them loads. -/
private theorem readSymmetricKeyFiles_loads {fs : FileSystem} {before : List Bytes} (args : List Bytes) :
    Triple (HasLoaded env fs before) (readSymmetricKeyFiles env args)
      (fun res _ => res.isSome = true → ∀ done arg rest, args = done ++ arg :: rest → Loads env fs (before ++ done) arg)
      fun _ _ => True := by
  induction args generalizing before with
  | nil => exact .pure fun _ _ _ done arg rest he => by simp at he
  | cons symmetricKeyFile args ih =>
    refine .bind (readSymmetricKeyFile_loads symmetricKeyFile) fun res => ?_
    cases res with
    | none => exact .pure fun _ _ h => by cases h
    | some keyFile =>
      refine .of_start fun w hw => ?_
      obtain ⟨hfirst, hnext⟩ := hw rfl
      refine .bind (ih.pre fun _ he => he ▸ hnext) fun res => ?_
      cases res with
      | none => exact .pure fun _ _ h => by cases h
      | some keyFiles =>
        refine .pure fun _ hrest _ done arg rest he => ?_
        cases done with
        | nil =>
          cases he
          rwa [List.append_nil]
        | cons first done =>
          cases he
          rw [List.append_cons]
          exact hrest rfl done arg rest rfl

/-! ### The failures of `unlock` -/

private theorem getGitStatus_run {repo : Repo} {statusOutput : IStream} {w : World}
    (h : getGitStatus env (repo.start env) = (.ok statusOutput, w)) :
    statusOutput = outputStream (env.status repo.fs) ∧ HasLoaded env repo.fs [] w := by
  unfold getGitStatus at h
  rw [Prog.bind_apply, execCommand] at h
  split_ifs at h with hfails
  · cases h
  · cases h
    exact ⟨rfl, rfl, rfl, rfl⟩

/-- The key files `unlock` takes from the repository where it has no arguments. -/
def gpgKeyFiles (env : Env) : Action (List KeyFile) := do
  let repoKeysPath ← getRepoKeysPath env
  let gpgSecretKeys ← gpgListSecretKeys env
  decryptRepoKeys env unlockKeyVersion gpgSecretKeys repoKeysPath

private theorem unlockKeyFiles_gpg {w w' : World} {keyFiles : List KeyFile}
    (h : unlockKeyFiles env [] w = (.ok (some keyFiles), w')) :
    keyFiles ≠ [] ∧ gpgKeyFiles env w = (.ok keyFiles, w') := by
  rw [GitCrypt.unlockKeyFiles, if_neg (by simp)] at h
  obtain ⟨repoKeysPath, w₁, hpath, h⟩ := Prog.bind_ok h
  obtain ⟨gpgSecretKeys, w₂, hkeys, h⟩ := Prog.bind_ok h
  obtain ⟨decrypted, w₃, hdecrypt, h⟩ := Prog.bind_ok h
  have hgpg : gpgKeyFiles env w = (.ok decrypted, w₃) := by
    rw [gpgKeyFiles, Prog.bind_of_ok hpath, Prog.bind_of_ok hkeys, hdecrypt]
  cases decrypted with
  | nil => cases h
  | cons keyFile rest =>
    cases h
    exact ⟨List.cons_ne_nil _ _, hgpg⟩

/-- The working tree is not clean, or a key cannot be loaded. -/
inductive KeysFail (env : Env) (repo : Repo) (args : List Bytes) : Prop
  | unclean (h : env.status repo.fs ≠ [])
  | keyFile {before after : List Bytes} {arg : Bytes} (hargs : args = before ++ arg :: after)
      (h : ¬ Loads env repo.fs before arg)
  | gpg (hargs : args = []) (h : ∀ keyFiles, keyFiles ≠ [] →
      (gpgKeyFiles env (getGitStatus env (repo.start env)).2).1 ≠ .ok keyFiles)

theorem KeysFail.unlockKeyFiles {repo : Repo} {args : List Bytes} (h : KeysFail env repo args) {w : World}
    (hclean : env.status repo.fs = []) (hstatus : (getGitStatus env (repo.start env)).2 = w)
    (hw : HasLoaded env repo.fs [] w) (keyFiles : List KeyFile) :
    (unlockKeyFiles env args w).1 ≠ .ok (some keyFiles) := by
  intro hres
  obtain ⟨w', hrun⟩ : ∃ w', GitCrypt.unlockKeyFiles env args w = (.ok (some keyFiles), w') :=
    ⟨_, Prod.ext hres rfl⟩
  cases h with
  | unclean h => exact h hclean
  | keyFile hargs h =>
    subst hargs
    have hne : ∀ before arg (after : List Bytes), before ++ arg :: after ≠ [] := by simp
    rw [GitCrypt.unlockKeyFiles, if_pos (hne _ _ _)] at hrun
    exact h ((readSymmetricKeyFiles_loads _).ok hw hrun rfl _ _ _ rfl)
  | gpg hargs h =>
    subst hargs
    obtain ⟨hne, hgpg⟩ := unlockKeyFiles_gpg hrun
    rw [hstatus] at h
    exact h keyFiles hne (congrArg Prod.fst hgpg)

/-- An `unlock` whose keys fail ends with an error, and nothing is seen of it: the files, the key
files among them, and the configuration are what they were, and no file was touched or checked
out. -/
theorem unlock_all_or_nothing {repo : Repo} {args : List Bytes} (h : KeysFail env repo args) :
    exitStatus (unlock env args (repo.start env)).1 ≠ 0 ∧
      (unlock env args (repo.start env)).2.seen = (repo, []) := by
  have hquit (lines : List Bytes) {w : World} (hw : w.seen = (repo, [])) :
      exitStatus (leave 1 lines w).1 ≠ 0 ∧ (leave 1 lines w).2.seen = (repo, []) :=
    ⟨Nat.one_ne_zero, (leave_quiet 1 lines w).trans hw⟩
  unfold unlock
  rcases hstatus : getGitStatus env (repo.start env) with ⟨e | statusOutput, w₁⟩
  · rw [Prog.bind_of_error hstatus]
    exact ⟨exitStatus_error e, getGitStatus_quiet.seen_eq hstatus⟩
  obtain ⟨rfl, hw₁⟩ := getGitStatus_run hstatus
  have hseen : w₁.seen = (repo, []) := getGitStatus_quiet.seen_eq hstatus
  rw [Prog.bind_of_ok hstatus]
  by_cases hclean : env.status repo.fs = []
  · rw [hclean, if_neg (by decide)]
    have hkeys := h.unlockKeyFiles hclean (congrArg Prod.snd hstatus) hw₁
    rcases hrun : unlockKeyFiles env args w₁ with ⟨e | _ | keyFiles, w₂⟩
    · rw [Prog.bind_of_error hrun]
      exact ⟨exitStatus_error e, ((unlockKeyFiles_quiet args).seen_eq hrun).trans hseen⟩
    · rw [Prog.bind_of_ok hrun]
      exact ⟨Nat.one_ne_zero, ((unlockKeyFiles_quiet args).seen_eq hrun).trans hseen⟩
    · exact absurd (congrArg Prod.fst hrun) (hkeys keyFiles)
  · have hpeek : (outputStream (env.status repo.fs)).peek.1.isSome = true := by
      cases houtput : env.status repo.fs with
      | nil => exact absurd houtput hclean
      | cons b output => rfl
    rw [if_pos hpeek]
    exact hquit _ hseen

/-- The standard input has one key file only. -/
theorem unlock_all_or_nothing_twice :
    let env := { freshEnv with stdin := (KeyFile.empty.add Entry.zero).store }
    exitStatus (unlock env [str "-", str "-"] (freshRepo.start env)).1 ≠ 0 ∧
      (unlock env [str "-", str "-"] (freshRepo.start env)).2.seen = (freshRepo, []) := by
  refine unlock_all_or_nothing (@KeysFail.keyFile _ _ _ [str "-"] [] (str "-") rfl ?_)
  rintro ⟨bytes, loaded, -, h⟩
  rw [if_pos rfl] at h
  exact h.1 (List.mem_singleton.mpr rfl)

end GitCrypt
