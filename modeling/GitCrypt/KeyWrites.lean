import GitCrypt.KeyTruncation
import GitCrypt.Queries

/-! Key files that are written over. `store_to_file` empties the file before it writes to it,
so what a failure leaves depends on the operation that fails. -/
namespace GitCrypt
open Iostream Posix
variable {env : Env} {path old : Bytes} {ops : Nat}

/-- So many operations were made, and the file on a path has these contents. -/
def Holds (env : Env) (path : Bytes) (ops : Nat) (contents : Bytes) (w : World) : Prop :=
  w.ops = ops ∧ w.fs.readFile env.cwd path = .ok contents

/-- What `store_to_file` leaves in a file: creating it changes nothing, opening it again
empties it, and the last operation writes to it and closes it. -/
def storedBytes (env : Env) (ops : Nat) (data old : Bytes) : Bytes :=
  if env.fails ops || env.fails (ops + 1) then old
  else if env.fails (ops + 2) then data.take (env.short (ops + 2))
  else data

theorem syscall_create_holds (edit : Bytes → Bytes) {E : Exception → World → Prop} :
    Triple (Holds env path ops old) (syscall env (.create path) fun fs => (fs.writeFile env.cwd path edit).map ((), ·))
      (fun res w => res = (if env.fails ops then .error .eio else .ok ()) ∧
        Holds env path (ops + 1) (if env.fails ops then old else edit old) w) E := by
  rintro w ⟨rfl, hread⟩
  unfold syscall
  dsimp only
  by_cases hfails : env.fails w.ops = true
  · simp only [if_pos hfails]
    exact ⟨trivial, rfl, hread⟩
  · simp only [if_neg hfails]
    obtain ⟨fs, hwrite, hread'⟩ := FileSystem.writeFile_of_readFile hread edit
    simp only [hwrite]
    exact ⟨rfl, rfl, hread'⟩

theorem createProtectedFile_holds :
    Triple (Holds env path ops old) (createProtectedFile env path)
      (fun _ w => Holds env path (ops + 1) old w ∧ env.fails ops = false)
      fun _ w => Holds env path (ops + 1) old w ∧ env.fails ops = true := by
  refine .bind (syscall_create_holds id) fun res => ?_
  by_cases hfails : env.fails ops = true
  · simp only [if_pos hfails]
    rintro w ⟨rfl, hw⟩
    exact ⟨hw, hfails⟩
  · simp only [if_neg hfails]
    rintro w ⟨rfl, hw⟩
    exact ⟨hw, Bool.eq_false_iff.mpr hfails⟩

theorem writeContents_holds (data : Bytes) {E : Exception → World → Prop} :
    Triple (Holds env path ops []) (writeContents env path data)
      (fun ok w => ok = !env.fails ops ∧
        Holds env path (ops + 1) (if env.fails ops then data.take (env.short ops) else data) w) E := by
  rintro w ⟨rfl, hread⟩
  unfold writeContents
  dsimp only
  obtain ⟨fs, hwrite, hread'⟩ := FileSystem.writeFile_of_readFile hread
    (· ++ if env.fails w.ops = true then data.take (env.short w.ops) else data)
  rw [hwrite]
  exact ⟨rfl, rfl, hread'⟩

theorem storeToFile_holds (keyFile : KeyFile) :
    Triple (Holds env path ops old) (storeToFile env keyFile path)
      (fun ok w => w.fs.readFile env.cwd path = .ok (storedBytes env ops keyFile.store old) ∧
        (ok = true ↔ ∀ op, ops ≤ op → op ≤ ops + 2 → env.fails op = false))
      fun _ w => w.fs.readFile env.cwd path = .ok (storedBytes env ops keyFile.store old) ∧ env.fails ops = true := by
  have hsteps : (∀ op, ops ≤ op → op ≤ ops + 2 → env.fails op = false) ↔
      env.fails ops = false ∧ env.fails (ops + 1) = false ∧ env.fails (ops + 2) = false := by
    constructor
    · intro h
      exact ⟨h _ le_rfl (by omega), h _ (by omega) (by omega), h _ (by omega) le_rfl⟩
    · rintro ⟨h₀, h₁, h₂⟩ op hlow hhigh
      obtain rfl | rfl | rfl : op = ops ∨ op = ops + 1 ∨ op = ops + 2 := by omega
      · exact h₀
      · exact h₁
      · exact h₂
  refine .bind (createProtectedFile_holds.weakenError ?_) fun _ =>
    .assuming fun h₀ => .bind (syscall_create_holds _) fun res => ?_
  · rintro e w ⟨⟨-, hread⟩, h₀⟩
    rw [storedBytes, h₀]
    exact ⟨hread, rfl⟩
  cases h₁ : env.fails (ops + 1) with
  | true =>
    rintro w ⟨rfl, -, hread⟩
    refine ⟨?_, ?_⟩
    · rw [storedBytes, h₁, Bool.or_true]
      exact hread
    · rw [hsteps, h₁]
      simp
  | false =>
    refine .pre (.assuming fun hres => ?_) fun w hw => ⟨hw.2, hw.1⟩
    subst hres
    refine (writeContents_holds keyFile.store).post fun ok w ⟨hok, hread⟩ => ⟨?_, ?_⟩
    · rw [storedBytes, h₀, h₁]
      exact hread.2
    · rw [hok, hsteps]
      simp [h₀, h₁]

/-- What `load_from_file` makes of a path, nothing where the file cannot be opened. -/
def loadAt (env : Env) (path : Bytes) (fs : FileSystem) : Option (Except KeyError KeyFile) :=
  (readable env path fs).map KeyFile.loadBytes

theorem readable_of_readFile {fs : FileSystem} {bytes : Bytes} (h : fs.readFile env.cwd path = .ok bytes) :
    readable env path fs = some bytes := by
  obtain ⟨loc, hr, hf⟩ := FileSystem.readFile_ok.mp h
  rw [readable, FileSystem.stat_ok.mpr ⟨loc, hr, hf⟩]

/-- What loads is a file. -/
private theorem readFile_of_loadAt {fs : FileSystem} {keyFile : KeyFile} (h : loadAt env path fs = some (.ok keyFile)) :
    ∃ bytes, fs.readFile env.cwd path = .ok bytes ∧ KeyFile.loadBytes bytes = .ok keyFile := by
  obtain ⟨bytes, hread, hload⟩ := Option.map_eq_some_iff.mp h
  refine ⟨bytes, ?_, hload⟩
  unfold readable at hread
  unfold FileSystem.readFile
  cases hstat : fs.stat env.cwd path with
  | error e =>
    rw [hstat] at hread
    cases hread
  | ok node =>
    rw [hstat] at hread
    cases node with
    | file contents =>
      cases hread
      rfl
    | dir =>
      -- nothing is read from a directory, which is no key file
      cases hread
      cases hload

/-- A key file whose replacement fails is as it was when it could not be opened. When it could,
it holds the first part of the new one, which is malformed or yields the newest entries of the
new one. -/
theorem storeToFile_failure {keyFile : KeyFile} {before : KeyFile} {w w' : World} {res : Except Exception Bool}
    (hbefore : loadAt env path w.fs = some (.ok before)) (hrun : storeToFile env keyFile path w = (res, w'))
    (hfails : res ≠ .ok true) :
    ((env.fails w.ops = true ∨ env.fails (w.ops + 1) = true) ∧ loadAt env path w'.fs = some (.ok before)) ∨
      env.fails (w.ops + 2) = true ∧ ∃ written, written <+: keyFile.store ∧ readable env path w'.fs = some written ∧
        (keyFile.keyName.length < 2 ^ 32 → loadAt env path w'.fs = some (.error .malformed) ∨
          ∃ n, loadAt env path w'.fs = some (.ok (keyFile.newest n))) := by
  obtain ⟨old, hread, hload⟩ := readFile_of_loadAt hbefore
  have hstored := storeToFile_holds keyFile w ⟨rfl, hread⟩
  rw [hrun] at hstored
  obtain ⟨hafter, op, hlow, hhigh, hop⟩ : w'.fs.readFile env.cwd path = .ok (storedBytes env w.ops keyFile.store old) ∧
      ∃ op, w.ops ≤ op ∧ op ≤ w.ops + 2 ∧ env.fails op = true := by
    cases res with
    | error e => exact ⟨hstored.1, w.ops, le_rfl, by omega, hstored.2⟩
    | ok ok =>
      refine ⟨hstored.1, ?_⟩
      by_contra hnone
      refine hfails (congrArg _ (hstored.2.mpr fun op hlow hhigh => ?_))
      exact Bool.eq_false_iff.mpr fun hop => hnone ⟨op, hlow, hhigh, hop⟩
  rw [storedBytes] at hafter
  by_cases hopen : env.fails w.ops = true ∨ env.fails (w.ops + 1) = true
  · rw [if_pos (by simpa using hopen)] at hafter
    refine .inl ⟨hopen, ?_⟩
    rw [loadAt, readable_of_readFile hafter, Option.map_some, hload]
  · have hwrite : env.fails (w.ops + 2) = true := by
      obtain rfl | rfl | rfl : op = w.ops ∨ op = w.ops + 1 ∨ op = w.ops + 2 := by omega
      · exact absurd (.inl hop) hopen
      · exact absurd (.inr hop) hopen
      · exact hop
    rw [if_neg (by simpa using hopen), if_pos hwrite] at hafter
    have hprefix := List.take_prefix (env.short (w.ops + 2)) keyFile.store
    refine .inr ⟨hwrite, _, hprefix, readable_of_readFile hafter, fun hlen => ?_⟩
    rw [loadAt, readable_of_readFile hafter, Option.map_some]
    obtain ⟨hmalformed, hnewest⟩ := KeyFile.load_cut_off hlen hprefix
    by_cases hcut : keyFile.Storable ∧ ∃ n, keyFile.store.take (env.short (w.ops + 2)) = (keyFile.newest n).store
    · obtain ⟨hs, n, he⟩ := hcut
      exact .inr ⟨n, by rw [hnewest n hs he]⟩
    · exact .inl (by rw [hmalformed.mpr hcut])

private def storedKey : KeyFile := KeyFile.empty.add Entry.zero

/-- A file with a key, which is about to be written again. -/
private def storedRepo : Repo :=
  ⟨(FileSystem.empty.writeFile [] (str "key") fun _ => storedKey.store).toOption.getD .empty, []⟩

/-- The operation fails before it has written anything. -/
private def failingAt (op : Nat) : Env := { freshEnv with fails := (· == op) }

private theorem loadAt_storedRepo (env : Env) (hcwd : env.cwd = []) :
    loadAt env (str "key") storedRepo.fs = some (.ok storedKey) := by
  have hread : readable env (str "key") storedRepo.fs = some storedKey.store := by
    unfold readable
    rw [hcwd]
    decide +kernel
  rw [loadAt, hread, Option.map_some, KeyFile.loadBytes_store (.inl rfl)]

/-- The key file is lost to a failed write, even of the same key. -/
theorem storeToFile_failure_loses_key : ∃ (env : Env) (w w' : World) (keyFile : KeyFile),
    loadAt env (str "key") w.fs = some (.ok keyFile) ∧ storeToFile env keyFile (str "key") w = (.ok false, w') ∧
      loadAt env (str "key") w'.fs ≠ some (.ok keyFile) := by
  refine ⟨failingAt 2, storedRepo.start (failingAt 2), _, storedKey, loadAt_storedRepo _ rfl, Prod.ext ?_ rfl, ?_⟩
  · decide +kernel
  · decide +kernel

/-- The key file stays when it cannot be opened. -/
theorem storeToFile_failure_unopened : loadAt (failingAt 1) (str "key")
    (storeToFile (failingAt 1) KeyFile.empty (str "key") (storedRepo.start (failingAt 1))).2.fs = some (.ok storedKey) := by
  have hres : (storeToFile (failingAt 1) KeyFile.empty (str "key") (storedRepo.start (failingAt 1))).1 ≠ .ok true := by
    decide +kernel
  generalize hrun : storeToFile (failingAt 1) KeyFile.empty (str "key") (storedRepo.start (failingAt 1)) = run at hres ⊢
  obtain ⟨res, w'⟩ := run
  rcases storeToFile_failure (loadAt_storedRepo (failingAt 1) rfl) hrun hres with ⟨-, h⟩ | ⟨h, -⟩
  · exact h
  · cases h

end GitCrypt
