import GitCrypt.Library.Resume
import GitCrypt.Queries

/-! What `add_gpg_user` does to the file tree when nothing fails, as functions of the tree, and
what is left of it when something does. -/
namespace GitCrypt
open Iostream Posix
variable {env : Env}

/-- The tree of what is seen. -/
def withTree (s : Repo × List Event) (fs : FileSystem) : Repo × List Event := ({ s.1 with fs }, s.2)

/-! ### Parents -/

def madePrefix (cwd : Location) (fs : FileSystem) (dir : Bytes) : Option FileSystem :=
  match fs.stat cwd dir with
  | .ok .dir => some fs
  | .error .enoent => (fs.mkdir cwd dir).toOption
  | _ => none

/-- The tree with the directories, made one after the other. -/
def madePrefixes (cwd : Location) : List Bytes → FileSystem → Option FileSystem
  | [], fs => some fs
  | dir :: dirs, fs => (madePrefix cwd fs dir).bind (madePrefixes cwd dirs)

section
variable {cwd : Location} {fs fs' mid : FileSystem} {dir path : Bytes}

theorem madePrefix_cases (h : madePrefix cwd fs dir = some fs') :
    fs.stat cwd dir = .ok .dir ∧ fs' = fs ∨ fs.mkdir cwd dir = .ok fs' := by
  unfold madePrefix at h
  split at h
  · rename_i hs
    exact .inl ⟨hs, (Option.some.inj h).symm⟩
  · cases hm : fs.mkdir cwd dir with
    | error e => rw [hm] at h; cases h
    | ok made => rw [hm] at h; cases h; exact .inr rfl
  · cases h

private theorem madePrefix_extends (h : madePrefix cwd fs dir = some fs') : fs.Extends fs' := by
  rcases madePrefix_cases h with ⟨-, rfl⟩ | hm
  · exact .refl _
  · obtain ⟨name, loc, -, hn, hdiff⟩ := FileSystem.mkdir_ok hm
    exact hdiff.extends hn

private theorem stat_of_madePrefix (h : madePrefix cwd fs dir = some fs') : fs'.stat cwd dir = .ok .dir := by
  rcases madePrefix_cases h with ⟨hs, rfl⟩ | hm
  · exact hs
  · obtain ⟨name, loc, hr, hn, hdiff⟩ := FileSystem.mkdir_ok hm
    have hext := hdiff.extends hn
    exact FileSystem.stat_ok.mpr ⟨_, FileSystem.resolve_of_dirsIn hext.dirsIn hr, hdiff.at_self⟩

theorem madePrefix_of_stat (h : fs.stat cwd dir = .ok .dir) : madePrefix cwd fs dir = some fs := by
  rw [madePrefix, h]

variable {dirs rest : List Bytes}

private theorem madePrefixes_append :
    madePrefixes cwd (dirs ++ rest) fs = (madePrefixes cwd dirs fs).bind (madePrefixes cwd rest) := by
  induction dirs generalizing fs with
  | nil => rfl
  | cons dir dirs ih =>
    rw [List.cons_append, madePrefixes, madePrefixes, Option.bind_assoc]
    congr 1
    funext made
    exact ih

theorem madePrefixes_extends (h : madePrefixes cwd dirs fs = some fs') : fs.Extends fs' := by
  induction dirs generalizing fs with
  | nil => exact Option.some.inj h ▸ .refl _
  | cons dir dirs ih =>
    obtain ⟨made, hmade, hrest⟩ := Option.bind_eq_some_iff.mp h
    exact (madePrefix_extends hmade).trans (ih hrest)

theorem madePrefixes_of_stat (h : ∀ dir ∈ dirs, fs.stat cwd dir = .ok .dir) : madePrefixes cwd dirs fs = some fs := by
  induction dirs with
  | nil => rfl
  | cons dir dirs ih =>
    rw [List.forall_mem_cons] at h
    rw [madePrefixes, madePrefix_of_stat h.1, Option.bind_some, ih h.2]

private theorem stat_of_madePrefixes (h : madePrefixes cwd dirs fs = some fs') :
    ∀ dir ∈ dirs, fs'.stat cwd dir = .ok .dir := by
  induction dirs generalizing fs with
  | nil => simp
  | cons dir dirs ih =>
    obtain ⟨made, hmade, hrest⟩ := Option.bind_eq_some_iff.mp h
    rw [List.forall_mem_cons]
    exact ⟨(madePrefixes_extends hrest).stat (stat_of_madePrefix hmade), ih hrest⟩

/-- Where the directories have been made they are made again without effect. -/
private theorem madePrefixes_again (h : madePrefixes cwd dirs fs = some mid) (hext : mid.Extends fs') :
    madePrefixes cwd dirs fs' = some fs' :=
  madePrefixes_of_stat fun dir hdir => hext.stat (stat_of_madePrefixes h dir hdir)

/-- The same files are there, with the same contents. -/
def SameFiles (fs fs' : FileSystem) : Prop :=
  ∀ loc bytes, fs'.find loc = some (.file bytes) ↔ fs.find loc = some (.file bytes)

theorem sameFiles_of_madePrefixes (h : madePrefixes cwd dirs fs = some fs') : SameFiles fs fs' := by
  induction dirs generalizing fs with
  | nil => exact Option.some.inj h ▸ fun _ _ => Iff.rfl
  | cons dir dirs ih =>
    obtain ⟨made, hmade, hrest⟩ := Option.bind_eq_some_iff.mp h
    intro loc bytes
    rw [ih hrest loc bytes]
    rcases madePrefix_cases hmade with ⟨-, rfl⟩ | hm
    · rfl
    · exact (FileSystem.mkdir_changesOnly hm fun _ => False).files loc id bytes

def madeParents (cwd : Location) (fs : FileSystem) (path : Bytes) : Option FileSystem :=
  madePrefixes cwd (pathPrefixes path) fs

/-- A first part of the parents has been made. -/
def PartlyMade (cwd : Location) (fs : FileSystem) (path : Bytes) (mid : FileSystem) : Prop :=
  ∃ dirs rest, pathPrefixes path = dirs ++ rest ∧ madePrefixes cwd dirs fs = some mid

theorem PartlyMade.madeParents (h : PartlyMade cwd fs path mid) (hall : madeParents cwd fs path = some fs') :
    GitCrypt.madeParents cwd mid path = some fs' ∧ fs.Extends mid ∧ mid.Extends fs' := by
  obtain ⟨dirs, rest, hpath, hmid⟩ := h
  unfold GitCrypt.madeParents at hall ⊢
  rw [hpath, madePrefixes_append] at hall ⊢
  rw [hmid, Option.bind_some] at hall
  rw [madePrefixes_again hmid (.refl mid), Option.bind_some]
  exact ⟨hall, madePrefixes_extends hmid, madePrefixes_extends hall⟩

/-- The parents of what is there are there. -/
private theorem stat_pathPrefixes {node : Node} (h : fs.stat cwd path = .ok node) :
    ∀ dir ∈ pathPrefixes path, fs.stat cwd dir = .ok .dir := by
  intro dir hdir
  obtain ⟨i, hi, rfl⟩ := List.mem_map.mp hdir
  obtain ⟨hlt, hslash⟩ := List.mem_filter.mp hi
  rw [List.mem_range] at hlt
  obtain ⟨hpos, hslash⟩ := of_decide_eq_true hslash
  have hne : path.take i ≠ [] := by
    intro he
    have hlen := congrArg List.length he
    rw [List.length_take, List.length_nil] at hlen
    omega
  have hsplit : path = path.take i ++ 47 :: path.drop (i + 1) := by
    have hget : path[i] = 47 := by rwa [List.getElem?_eq_getElem hlt, Option.some.injEq] at hslash
    rw [← hget, ← List.drop_eq_getElem_cons hlt, List.take_append_drop]
  rw [hsplit] at h
  exact FileSystem.stat_prefix hne h

theorem PartlyMade.eq_of_stat (h : PartlyMade cwd fs path mid) {node : Node} (hs : fs.stat cwd path = .ok node) :
    mid = fs := by
  obtain ⟨dirs, rest, hpath, hmid⟩ := h
  have hdirs : madePrefixes cwd dirs fs = some fs :=
    madePrefixes_of_stat fun dir hdir => stat_pathPrefixes hs dir (by simp [hpath, hdir])
  exact Option.some.inj (hmid.symm.trans hdirs)

end

section
variable {s : Repo × List Event}

theorem mkdirPrefix_seen (dir : Bytes) : Triple (fun w => w.seen = s) (mkdirPrefix env dir)
    (fun _ w => ∃ fs', madePrefix env.cwd s.1.fs dir = some fs' ∧ w.seen = withTree s fs')
    fun _ w => w.seen = s ∧ (Reliable env → madePrefix env.cwd s.1.fs dir = none) := by
  refine .bind (syscall_query_seen fun _ => rfl) fun res => ?_
  split
  · refine .pure ?_
    rintro w ⟨hw, hq | ⟨-, hq⟩⟩
    · exact ⟨s.1.fs, madePrefix_of_stat hq.symm, hw⟩
    · cases hq
  · refine .throw ?_
    rintro w ⟨hw, hq | ⟨-, hq⟩⟩
    · exact ⟨hw, fun _ => by rw [madePrefix, ← hq]⟩
    · cases hq
  · refine .bind (R := fun made w => ∃ fs', w.seen = withTree s fs' ∧
      (made = .ok () ∧ madePrefix env.cwd s.1.fs dir = some fs' ∨ made ≠ .ok () ∧ fs' = s.1.fs ∧
        (Reliable env → madePrefix env.cwd s.1.fs dir = none))) ?_ fun made => ?_
    · intro w ⟨hw, hq⟩
      have henoent : madePrefix env.cwd s.1.fs dir = (s.1.fs.mkdir env.cwd dir).toOption := by
        rcases hq with hq | ⟨-, hq⟩
        · rw [madePrefix, ← hq]
        · cases hq
      refine syscall_edit_seen (Q := fun made s' => ∃ fs', s' = withTree s fs' ∧
        (made = .ok () ∧ madePrefix env.cwd s.1.fs dir = some fs' ∨ made ≠ .ok () ∧ fs' = s.1.fs ∧
          (Reliable env → madePrefix env.cwd s.1.fs dir = none))) (fun _ => rfl) ?_ ?_ ?_ w hw
      · exact fun hfail => ⟨s.1.fs, rfl, .inr ⟨by simp, rfl, fun h => absurd h hfail⟩⟩
      · exact fun e he => ⟨s.1.fs, rfl, .inr ⟨by simp, rfl, fun _ => by rw [henoent, he]; rfl⟩⟩
      · exact fun fs he => ⟨fs, rfl, .inl ⟨rfl, by rw [henoent, he]; rfl⟩⟩
    · split
      · refine .pure ?_
        rintro w ⟨fs', hw, ⟨-, hmade⟩ | ⟨hne, -⟩⟩
        · exact ⟨fs', hmade, hw⟩
        · exact absurd rfl hne
      · refine .throw ?_
        rintro w ⟨fs', hw, ⟨he, -⟩ | ⟨-, rfl, hnone⟩⟩
        · cases he
        · exact ⟨hw, hnone⟩
  · rename_i e hne
    refine .throw ?_
    rintro w ⟨hw, hq | ⟨hfail, -⟩⟩
    · refine ⟨hw, fun _ => ?_⟩
      rw [madePrefix, ← hq]
      split
      · rename_i he
        cases he
      · rename_i he
        cases he
        exact absurd rfl hne
      · rfl
    · exact ⟨hw, fun h => absurd h hfail⟩

private theorem mkdirPrefixes_seen (dirs : List Bytes) :
    Triple (fun w => w.seen = s) (forM dirs (mkdirPrefix env))
      (fun _ w => ∃ fs', madePrefixes env.cwd dirs s.1.fs = some fs' ∧ w.seen = withTree s fs')
      fun _ w => ∃ mid done rest, w.seen = withTree s mid ∧ dirs = done ++ rest ∧
        madePrefixes env.cwd done s.1.fs = some mid ∧
          (Reliable env → madePrefixes env.cwd dirs s.1.fs = none) := by
  induction dirs generalizing s with
  | nil => exact .pure fun w hw => ⟨s.1.fs, rfl, hw⟩
  | cons dir dirs ih =>
    rw [List.forM_cons]
    refine .bind (((mkdirPrefix_seen dir).weaken (fun _ => id) (fun _ _ => id)) ?_) fun _ => ?_
    · rintro e w ⟨hw, hnone⟩
      refine ⟨s.1.fs, [], dir :: dirs, hw, rfl, rfl, fun h => ?_⟩
      rw [madePrefixes, hnone h]
      rfl
    · rintro w ⟨fs', hmade, hw⟩
      have hcons (l : List Bytes) : madePrefixes env.cwd (dir :: l) s.1.fs = madePrefixes env.cwd l fs' := by
        rw [madePrefixes, hmade]
        rfl
      refine (ih (s := withTree s fs')).weaken (fun _ => id) ?_ ?_ w hw
      · rintro - w ⟨fs'', hrest, hw⟩
        exact ⟨fs'', (hcons dirs).trans hrest, hw⟩
      · rintro e w ⟨mid, done, rest, hw, hsplit, hmid, hnone⟩
        refine ⟨mid, dir :: done, rest, hw, by rw [hsplit, List.cons_append], (hcons done).trans hmid, fun h => ?_⟩
        rw [hcons, show fs' = (withTree s fs').1.fs from rfl, hnone h]

theorem mkdirParent_seen (path : Bytes) : Triple (fun w => w.seen = s) (mkdirParent env path)
    (fun _ w => ∃ fs', madeParents env.cwd s.1.fs path = some fs' ∧ w.seen = withTree s fs')
    fun _ w => ∃ mid, w.seen = withTree s mid ∧ PartlyMade env.cwd s.1.fs path mid ∧
      (Reliable env → madeParents env.cwd s.1.fs path = none) := by
  refine (mkdirPrefixes_seen (pathPrefixes path)).weakenError ?_
  rintro e w ⟨mid, done, rest, hw, hsplit, hmid, hnone⟩
  exact ⟨mid, hw, ⟨done, rest, hsplit, hmid⟩, hnone⟩

end

/-! ### The files of the collaborators -/

/-- The tree with what gpg makes of the data for a collaborator, in a new file. -/
def gpgWritten (env : Env) (path : Bytes) (collab : Bytes × Bool) (data : Bytes) (fs : FileSystem) :
    Option FileSystem :=
  match fs.stat env.cwd path, env.gpgEncrypt (str "0x" ++ collab.1) collab.2 data with
  | .error _, some bytes => (fs.writeFile env.cwd path fun _ => bytes).toOption
  | _, _ => none

section
variable {path data : Bytes} {collab : Bytes × Bool} {fs fs' : FileSystem}

theorem gpgWritten_some (h : gpgWritten env path collab data fs = some fs') :
    (∃ e, fs.stat env.cwd path = .error e) ∧ ∃ loc bytes, fs.resolve env.cwd path = .ok loc ∧
      fs.find loc = none ∧ fs.Differs fs' loc (some (.file bytes)) := by
  unfold gpgWritten at h
  split at h
  · rename_i e bytes hstat _
    cases hw : fs.writeFile env.cwd path fun _ => bytes with
    | error e => rw [hw] at h; cases h
    | ok written =>
      rw [hw] at h
      cases h
      obtain ⟨name, loc, hr, -, hdiff⟩ := FileSystem.writeFile_ok hw
      refine ⟨⟨e, hstat⟩, name :: loc, _, hr, ?_, hdiff⟩
      cases hf : fs.find (name :: loc) with
      | none => rfl
      | some node => rw [FileSystem.stat_ok.mpr ⟨_, hr, hf⟩] at hstat; cases hstat
  · cases h

theorem gpgWritten_le (h : gpgWritten env path collab data fs = some fs') : fs ≤ fs' := by
  obtain ⟨-, loc, bytes, -, hn, hdiff⟩ := gpgWritten_some h
  exact hdiff.extends hn

end

/-- Whether a path leads to something. -/
def isThere (env : Env) (path : Bytes) (fs : FileSystem) : Bool := (fs.stat env.cwd path).isOk

theorem isThere_iff {path : Bytes} {fs : FileSystem} :
    isThere env path fs = true ↔ ∃ node, fs.stat env.cwd path = .ok node := by
  unfold isThere
  cases fs.stat env.cwd path <;> simp [Except.isOk, Except.toBool]

theorem isThere_mono {path : Bytes} {fs fs' : FileSystem} (hle : fs ≤ fs') (h : isThere env path fs = true) :
    isThere env path fs' = true := by
  obtain ⟨node, hs⟩ := isThere_iff.mp h
  exact isThere_iff.mpr ⟨node, FileSystem.Extends.stat hle hs⟩

/-- How `encrypt_repo_key` makes a file: the parents first, then gpg. -/
def collabFileMade (env : Env) (path : Bytes) (collab : Bytes × Bool) (data : Bytes) (fs : FileSystem) :
    Option FileSystem :=
  (madeParents env.cwd fs path).bind (gpgWritten env path collab data)

section
variable {path data : Bytes} {collab : Bytes × Bool} {fs fs' mid : FileSystem}

private theorem collabFileMade_le (h : collabFileMade env path collab data fs = some fs') : fs ≤ fs' := by
  obtain ⟨made, hmade, hw⟩ := Option.bind_eq_some_iff.mp h
  exact le_trans (madePrefixes_extends hmade) (gpgWritten_le hw)

/-- It is a new file. -/
theorem collabFileMade_fresh (h : collabFileMade env path collab data fs = some fs') :
    ∃ loc bytes, fs'.resolve env.cwd path = .ok loc ∧ fs.find loc = none ∧ fs'.find loc = some (.file bytes) := by
  obtain ⟨made, hmade, hw⟩ := Option.bind_eq_some_iff.mp h
  obtain ⟨-, loc, bytes, hr, hn, hdiff⟩ := gpgWritten_some hw
  have hr' := FileSystem.resolve_of_dirsIn (hdiff.extends hn).dirsIn hr
  exact ⟨loc, bytes, hr', (madePrefixes_extends hmade).find_none hn, hdiff.at_self⟩

private theorem isThere_of_collabFileMade (h : collabFileMade env path collab data fs = some fs') :
    isThere env path fs' = true := by
  obtain ⟨loc, bytes, hr, -, hf⟩ := collabFileMade_fresh h
  exact isThere_iff.mpr ⟨_, FileSystem.stat_ok.mpr ⟨loc, hr, hf⟩⟩

theorem PartlyMade.le (h : PartlyMade env.cwd fs path mid) : fs ≤ mid := by
  obtain ⟨done, rest, -, hmid⟩ := h
  exact madePrefixes_extends hmid

theorem PartlyMade.eq_of_isThere (h : PartlyMade env.cwd fs path mid) (hs : isThere env path fs = true) :
    mid = fs := by
  obtain ⟨node, hnode⟩ := isThere_iff.mp hs
  exact h.eq_of_stat hnode

theorem PartlyMade.collabFileMade (h : PartlyMade env.cwd fs path mid)
    (hmade : collabFileMade env path collab data fs = some fs') :
    GitCrypt.collabFileMade env path collab data mid = some fs' ∧ mid ≤ fs' := by
  obtain ⟨made, hparents, hw⟩ := Option.bind_eq_some_iff.mp hmade
  obtain ⟨hmid, -, hle⟩ := h.madeParents hparents
  exact ⟨Option.bind_eq_some_iff.mpr ⟨made, hmid, hw⟩, le_trans hle (gpgWritten_le hw)⟩

theorem PartlyMade.missing (h : PartlyMade env.cwd fs path mid)
    (hmade : GitCrypt.collabFileMade env path collab data fs = some fs') : isThere env path mid = false := by
  obtain ⟨made, hparents, hw⟩ := Option.bind_eq_some_iff.mp hmade
  obtain ⟨-, -, hle⟩ := h.madeParents hparents
  obtain ⟨⟨e, hstat⟩, -⟩ := gpgWritten_some hw
  rw [← Bool.not_eq_true]
  intro hs
  obtain ⟨node, hnode⟩ := isThere_iff.mp hs
  rw [hle.stat hnode] at hstat
  cases hstat

end

/-- The files of the collaborators as things to make. -/
def repoKeyFiles (env : Env) (keyName : Option Bytes) (keyVersion : UInt32) (keyFileData keysPath : Bytes) :
    Resume.Maker FileSystem (Bytes × Bool) where
  has fs collab := isThere env (repoKeyPath keysPath keyName keyVersion collab.1) fs
  make collab := collabFileMade env (repoKeyPath keysPath keyName keyVersion collab.1) collab keyFileData
  begun collab fs := PartlyMade env.cwd fs (repoKeyPath keysPath keyName keyVersion collab.1)
  has_mono := isThere_mono
  le_of_make := collabFileMade_le
  has_of_make := isThere_of_collabFileMade
  le_of_begun := PartlyMade.le
  eq_of_begun := PartlyMade.eq_of_isThere
  make_of_begun := PartlyMade.collabFileMade
  missing_of_begun := PartlyMade.missing

section
variable {s : Repo × List Event}

private theorem gpgEncrypt_run (program path data : Bytes) (collab : Bytes × Bool) (w : World) :
    (Command.gpgEncrypt program collab.2 path (str "0x" ++ collab.1) data).run env w =
      (gpgWritten env path collab data w.fs).elim (2, [], w) fun fs => (0, [], { w with fs }) := by
  simp only [Command.run, gpgWritten]
  cases w.fs.stat env.cwd path with
  | ok node => rfl
  | error e =>
    cases env.gpgEncrypt (str "0x" ++ collab.1) collab.2 data with
    | none => rfl
    | some bytes =>
      dsimp only
      cases w.fs.writeFile env.cwd path fun _ => bytes <;> rfl

theorem gpgEncryptToFile_seen (path : Bytes) (collab : Bytes × Bool) (data : Bytes) :
    Triple (fun w => w.seen = s) (gpgEncryptToFile env path collab.1 collab.2 data)
      (fun _ w => ∃ fs', gpgWritten env path collab data s.1.fs = some fs' ∧ w.seen = withTree s fs')
      fun _ w => w.seen = s ∧ (Reliable env → gpgWritten env path collab data s.1.fs = none) := by
  let Q (out : Nat × Bytes) (s' : Repo × List Event) : Prop :=
    (out.1 = 0 → ∃ fs', gpgWritten env path collab data s.1.fs = some fs' ∧ s' = withTree s fs') ∧
      (out.1 ≠ 0 → s' = s ∧ (Reliable env → gpgWritten env path collab data s.1.fs = none))
  refine .bind gpgGetExecutable_seen fun program => .bind (R := fun out w => Q out w.seen) ?_ ?_
  · refine execCommand_seen (Q := Q) (fun _ => rfl) (fun hfail => ?_) fun w hw => ?_
    · exact ⟨fun h => absurd h (by decide), fun _ => ⟨rfl, fun h => absurd h hfail⟩⟩
    · have hfs : gpgWritten env path collab data s.1.fs = gpgWritten env path collab data w.fs := by rw [← hw]; rfl
      rw [gpgEncrypt_run, ← hfs]
      cases hgpg : gpgWritten env path collab data s.1.fs with
      | none => exact ⟨fun h => absurd h (OfNat.ofNat_ne_zero 2), fun _ => ⟨by rw [← hw]; rfl, fun _ => hgpg⟩⟩
      | some fs => exact ⟨fun _ => ⟨fs, hgpg, by rw [← hw]; rfl⟩, fun h => absurd rfl h⟩
  · rintro ⟨status, output⟩
    refine .ite (fun hs => .pure fun w hw => ?_) fun hs => .throw fun w hw => ?_
    · exact hw.1 (of_decide_eq_true hs)
    · exact hw.2 (by simpa [successfulExit] using hs)

theorem access_seen (path : Bytes) {E : Exception → World → Prop} :
    Triple (fun w => w.seen = s) (access env path)
      (fun res w => w.seen = s ∧ (res = .ok () → isThere env path s.1.fs = true) ∧
        (Reliable env → res ≠ .ok () → isThere env path s.1.fs = false)) E := by
  refine access_query_seen.post fun res w ⟨hw, hres⟩ => ⟨hw, ?_⟩
  rcases hres with rfl | ⟨hfail, rfl⟩
  · unfold isThere
    cases s.1.fs.stat env.cwd path with
    | error e => exact ⟨fun h => (by cases h), fun _ _ => rfl⟩
    | ok node => exact ⟨fun _ => rfl, fun _ h => absurd rfl h⟩
  · exact ⟨by simp, fun hreliable => absurd hreliable hfail⟩

/-- A run that returns has made all files; one that throws has been interrupted. -/
theorem encryptRepoKeyTo_seen (keyName : Option Bytes) (keyVersion : UInt32) (data keysPath : Bytes)
    (collabs : List (Bytes × Bool)) :
    Triple (fun w => w.seen = s) (encryptRepoKeyTo env keyName keyVersion data keysPath collabs)
      (fun newFiles w => ∃ new fs', (repoKeyFiles env keyName keyVersion data keysPath).run collabs s.1.fs =
        some (new, fs') ∧ newFiles = new.map (repoKeyPath keysPath keyName keyVersion ·.1) ∧
          w.seen = withTree s fs')
      fun _ w => ∃ made mid, w.seen = withTree s mid ∧
        (repoKeyFiles env keyName keyVersion data keysPath).Interrupted collabs s.1.fs made mid ∧
        (Reliable env → (repoKeyFiles env keyName keyVersion data keysPath).run collabs s.1.fs = none) := by
  let M := repoKeyFiles env keyName keyVersion data keysPath
  induction collabs generalizing s with
  | nil => exact .pure fun w hw => ⟨[], s.1.fs, rfl, rfl, hw⟩
  | cons collab collabs ih =>
    let path := repoKeyPath keysPath keyName keyVersion collab.1
    have hnone (h : M.ensure collab s.1.fs = none) : M.run (collab :: collabs) s.1.fs = none := by
      rw [Resume.Maker.run, h]
      rfl
    refine .bind (access_seen path) fun res => ?_
    split
    · refine (Triple.assuming fun hres => ?_).pre fun w hw => ⟨hw.1, hw.2.1 rfl⟩
      have hensure : M.ensure collab s.1.fs = some ([], s.1.fs) := Resume.Maker.ensure_of_has hres
      refine ih.weaken (fun _ => id) ?_ ?_
      · rintro newFiles w ⟨new, fs', hrun, hnew, hw⟩
        exact ⟨new, fs', Resume.Maker.run_cons.mpr ⟨_, _, _, hensure, hrun, rfl⟩, hnew, hw⟩
      · rintro e w ⟨made, mid, hw, hmid, hfail⟩
        exact ⟨_, mid, hw, .later hensure hmid, fun h => Resume.Maker.run_cons_eq_none hensure (hfail h)⟩
    · refine (Triple.assuming fun hres => ?_).pre fun w hw => ⟨hw.1, fun h => hw.2.2 h (by simp)⟩
      have hmissing (h : Reliable env) (hmake : M.make collab s.1.fs = none) : M.run (collab :: collabs) s.1.fs = none :=
        hnone (by rw [Resume.Maker.ensure_of_missing (hres h), hmake]; rfl)
      refine .bind ((mkdirParent_seen path).weakenError ?_) fun _ => ?_
      · rintro e w ⟨mid, hw, hmid, hfail⟩
        exact ⟨[], mid, hw, .here hmid, fun h => hmissing h (congrArg (Option.bind · _) (hfail h))⟩
      rintro w ⟨fs₁, hparents, hw⟩
      refine Triple.bind ((gpgEncryptToFile_seen path collab data).weakenError ?_)
        (fun _ => ?_) w hw
      · rintro e w ⟨hw, hfail⟩
        refine ⟨[], fs₁, hw, .here ⟨pathPrefixes path, [], (List.append_nil _).symm, hparents⟩, fun h => hmissing h ?_⟩
        exact Option.bind_eq_none_iff.mpr fun fs h₁ => Option.some.inj (hparents.symm.trans h₁) ▸ hfail h
      rintro w ⟨fs₂, hgpg, hw⟩
      have hmake : M.make collab s.1.fs = some fs₂ := Option.bind_eq_some_iff.mpr ⟨fs₁, hparents, hgpg⟩
      have hensure : M.ensure collab s.1.fs = some ([collab], fs₂) := by
        rw [Resume.Maker.ensure_of_missing, hmake]
        · rfl
        · exact PartlyMade.missing ⟨[], pathPrefixes path, rfl, rfl⟩ hmake
      refine Triple.bind (ih.weakenError ?_) (fun newFiles => .pure ?_) w hw
      · rintro e w ⟨made, mid, hw, hmid, hfail⟩
        exact ⟨_, mid, hw, .later hensure hmid, fun h => Resume.Maker.run_cons_eq_none hensure (hfail h)⟩
      · rintro w ⟨new, fs', hrun, rfl, hw⟩
        exact ⟨_, fs', Resume.Maker.run_cons.mpr ⟨_, _, _, hensure, hrun, rfl⟩, rfl, hw⟩

end

/-! ### The attributes of the state directory -/

/-- The tree with the attributes, and the file where it is new. -/
def attributesWritten (env : Env) (path : Bytes) (fs : FileSystem) : Option (List Bytes × FileSystem) :=
  if isThere env path fs then some ([], fs)
  else do
    let created ← (fs.writeFile env.cwd path fun _ => []).toOption
    let written ← (created.writeFile env.cwd path (· ++ stateGitattributes)).toOption
    return ([path], written)

/-- Nothing differs but a file at the path, old or new. -/
def Rewritten (env : Env) (path : Bytes) (fs fs' : FileSystem) : Prop :=
  ∃ loc bytes, fs.resolve env.cwd path = .ok loc ∧ fs.find loc ≠ some .dir ∧ fs.Differs fs' loc (some (.file bytes))

section
variable {path : Bytes} {fs fs' fs'' : FileSystem}

theorem rewritten_of_writeFile {edit : Bytes → Bytes} (h : fs.writeFile env.cwd path edit = .ok fs') :
    Rewritten env path fs fs' := by
  obtain ⟨name, loc, hr, hd, hdiff⟩ := FileSystem.writeFile_ok h
  exact ⟨name :: loc, _, hr, hd, hdiff⟩

theorem Rewritten.trans (h : Rewritten env path fs fs') (h' : Rewritten env path fs' fs'') :
    Rewritten env path fs fs'' := by
  obtain ⟨loc, bytes, hr, hd, hdiff⟩ := h
  obtain ⟨loc', bytes', hr', hd', hdiff'⟩ := h'
  obtain rfl : loc' = loc :=
    Except.ok.inj (hr'.symm.trans (FileSystem.resolve_of_dirsIn (hdiff.dirsIn hd) hr))
  refine ⟨loc', bytes', hr, hd, fun l => ?_⟩
  rw [hdiff' l]
  split_ifs with hl
  · rfl
  · exact hdiff.of_ne hl

/-- A file at a path that led nowhere is new. -/
theorem Rewritten.fresh (h : Rewritten env path fs fs') (hs : isThere env path fs = false) :
    ∃ loc bytes, fs.resolve env.cwd path = .ok loc ∧ fs.find loc = none ∧ fs.Differs fs' loc (some (.file bytes)) := by
  obtain ⟨loc, bytes, hr, -, hdiff⟩ := h
  refine ⟨loc, bytes, hr, ?_, hdiff⟩
  by_contra hf
  obtain ⟨node, hf⟩ := Option.ne_none_iff_exists'.mp hf
  rw [isThere_iff.mpr ⟨node, FileSystem.stat_ok.mpr ⟨loc, hr, hf⟩⟩] at hs
  cases hs

theorem Rewritten.isThere (h : Rewritten env path fs fs') : isThere env path fs' = true := by
  obtain ⟨loc, bytes, hr, hd, hdiff⟩ := h
  exact isThere_iff.mpr ⟨_, FileSystem.stat_ok.mpr ⟨loc, FileSystem.resolve_of_dirsIn (hdiff.dirsIn hd) hr, hdiff.at_self⟩⟩

/-- Written with the bytes it had, the file makes no difference. -/
theorem Rewritten.find_eq (h : Rewritten env path fs fs')
    (hfiles : ∀ loc bytes, fs'.find loc = some (.file bytes) → fs.find loc = some (.file bytes)) (loc : Location) :
    fs'.find loc = fs.find loc := by
  obtain ⟨loc', bytes, -, -, hdiff⟩ := h
  by_cases hl : loc = loc'
  · rw [hl, hfiles loc' bytes hdiff.at_self, hdiff.at_self]
  · exact hdiff.of_ne hl

private theorem toOption_eq_some {x : Except Errno FileSystem} (h : x.toOption = some fs) : x = .ok fs := by
  cases x with
  | error e => cases h
  | ok fs' => rw [Option.some.inj h]

theorem attributesWritten_of_isThere (h : isThere env path fs = true) :
    attributesWritten env path fs = some ([], fs) := if_pos h

theorem attributesWritten_cases {new : List Bytes} (h : attributesWritten env path fs = some (new, fs')) :
    isThere env path fs = true ∧ new = [] ∧ fs' = fs ∨
      isThere env path fs = false ∧ new = [path] ∧ Rewritten env path fs fs' := by
  unfold attributesWritten at h
  split_ifs at h with hs
  · cases h
    exact .inl ⟨hs, rfl, rfl⟩
  · obtain ⟨created, hc, h⟩ := Option.bind_eq_some_iff.mp h
    obtain ⟨written, hw, h⟩ := Option.bind_eq_some_iff.mp h
    cases h
    refine .inr ⟨Bool.not_eq_true _ ▸ hs, rfl, ?_⟩
    exact (rewritten_of_writeFile (toOption_eq_some hc)).trans (rewritten_of_writeFile (toOption_eq_some hw))

theorem attributesWritten_le {new : List Bytes} (h : attributesWritten env path fs = some (new, fs')) :
    fs ≤ fs' := by
  rcases attributesWritten_cases h with ⟨-, -, rfl⟩ | ⟨hmissing, -, hrewritten⟩
  · exact le_refl _
  · obtain ⟨loc, bytes, -, hn, hdiff⟩ := hrewritten.fresh hmissing
    exact hdiff.extends hn

end

section
variable {s : Repo × List Event}

theorem writeContents_seen (path data : Bytes) {E : Exception → World → Prop} :
    Triple (fun w => w.seen = s) (writeContents env path data)
      (fun ok w => ∃ fs', w.seen = withTree s fs' ∧ (fs' = s.1.fs ∨ Rewritten env path s.1.fs fs') ∧
        (Reliable env → (s.1.fs.writeFile env.cwd path (· ++ data)).toOption = if ok then some fs' else none)) E := by
  rintro w rfl
  have hreliable (h : Reliable env) : env.fails w.ops = false := h w.ops
  have hseen (fs : FileSystem) (ok : Bool) :
      World.seen { w.note (.called (.write path) ok) with fs } = withTree w.seen fs :=
    @World.seen_note { w with fs } (.called (.write path) ok) rfl
  unfold writeContents
  dsimp only
  cases hwrite : w.fs.writeFile env.cwd path
      (· ++ if env.fails w.ops = true then data.take (env.short w.ops) else data) with
  | ok fs =>
    refine ⟨fs, hseen fs _, .inr (rewritten_of_writeFile hwrite), fun h => ?_⟩
    rw [hreliable h, if_neg Bool.false_ne_true] at hwrite
    rw [hreliable h]
    exact congrArg Except.toOption hwrite
  | error e =>
    refine ⟨w.fs, hseen w.fs false, .inl rfl, fun h => ?_⟩
    rw [hreliable h, if_neg Bool.false_ne_true] at hwrite
    exact congrArg Except.toOption hwrite

/-- The file may be written in part, or cut off where it could not be looked at. -/
theorem writeStateGitattributes_seen (path : Bytes) {E : Exception → World → Prop} :
    Triple (fun w => w.seen = s) (writeStateGitattributes env path)
      (fun res w => ∃ fs', w.seen = withTree s fs' ∧ (fs' = s.1.fs ∨ Rewritten env path s.1.fs fs') ∧
        (Reliable env → attributesWritten env path s.1.fs = res.map (·, fs'))) E := by
  refine .bind (access_seen path) fun res => ?_
  split
  · refine .pure fun w hw => ⟨s.1.fs, hw.1, .inl rfl, fun _ => ?_⟩
    exact attributesWritten_of_isThere (hw.2.1 rfl)
  refine (Triple.assuming fun (hmissing : Reliable env → isThere env path s.1.fs = false) => ?_).pre
    fun w hw => ⟨hw.1, fun h => hw.2.2 h (by simp)⟩
  have hwritten (h : Reliable env) : attributesWritten env path s.1.fs =
      (s.1.fs.writeFile env.cwd path fun _ => []).toOption.bind fun created =>
        (created.writeFile env.cwd path (· ++ stateGitattributes)).toOption.bind fun written =>
          some ([path], written) := by
    unfold attributesWritten
    rw [hmissing h]
    rfl
  refine .bind (R := fun ok w => ∃ fs', w.seen = withTree s fs' ∧ (fs' = s.1.fs ∨ Rewritten env path s.1.fs fs') ∧
    (Reliable env → attributesWritten env path s.1.fs = if ok then some ([path], fs') else none)) ?_ fun ok => ?_
  · refine .bind (syscall_edit_seen (Q := fun made s' => ∃ fs', s' = withTree s fs' ∧
      (made = .ok () → s.1.fs.writeFile env.cwd path (fun _ => []) = .ok fs') ∧ (made ≠ .ok () → fs' = s.1.fs ∧
        (Reliable env → attributesWritten env path s.1.fs = none))) (fun _ => rfl) ?_ ?_ ?_) fun made => ?_
    · exact fun hfail => ⟨s.1.fs, rfl, by simp, fun _ => ⟨rfl, fun h => absurd h hfail⟩⟩
    · exact fun e he => ⟨s.1.fs, rfl, by simp, fun _ => ⟨rfl, fun h => by rw [hwritten h, he]; rfl⟩⟩
    · exact fun fs he => ⟨fs, rfl, fun _ => he, fun h => absurd rfl h⟩
    · split
      · refine .pure ?_
        rintro w ⟨fs', hw, -, hfail⟩
        obtain ⟨rfl, hnone⟩ := hfail (by simp)
        exact ⟨s.1.fs, hw, .inl rfl, hnone⟩
      · rintro w ⟨created, hw, hcreated, -⟩
        have hcreated := hcreated rfl
        refine (writeContents_seen path stateGitattributes).post (fun ok w => ?_) w hw
        rintro ⟨fs', hw, hfs', hok⟩
        refine ⟨fs', hw, .inr ?_, fun h => ?_⟩
        · rcases hfs' with rfl | hrest
          · exact rewritten_of_writeFile hcreated
          · exact (rewritten_of_writeFile hcreated).trans hrest
        · rw [hwritten h, hcreated]
          change (created.writeFile env.cwd path _).toOption.bind _ = _
          rw [show (created.writeFile env.cwd path (· ++ stateGitattributes)).toOption = _ from hok h]
          cases ok <;> rfl
  · refine .ite (fun hok => .pure ?_) fun hok => ?_
    · rintro w ⟨fs', hw, hfs', hres⟩
      exact ⟨fs', hw, hfs', fun h => by rw [hres h, if_pos hok]; rfl⟩
    · rintro w ⟨fs', hw, hfs', hres⟩
      exact ⟨fs', hw, hfs', fun h => by rw [hres h, if_neg hok]; rfl⟩

end

end GitCrypt
