import GitCrypt.Locking

/-! `lock` run again after a `lock` that was cut off: when the second run brings the repository
to where the first one would have. -/
namespace GitCrypt
open Iostream Posix IStream
variable {env : Env} {attributes : Attributes} {entries : List IndexEntry} {gitDir : Location}
  {vars : LockOptions} {keys : List (Option Bytes)} {r r' : Repo} {keyName : Option Bytes}

/-- A repository with keys for `lock` to remove, and what git says of its files. -/
structure Lockable (env : Env) (attributes : Attributes) (entries : List IndexEntry) (gitDir : Location)
    (vars : LockOptions) (r : Repo) : Prop where
  answers : Answers env attributes
  listing : ∀ fs, env.lsFiles fs = entries.flatMap (·.line)
  located : Located env gitDir r
  exclusive : vars.allKeys = true → vars.keyName = none
  installed : ∀ keyName ∈ selectedKeys gitDir vars r, HasKeyFile gitDir r keyName
  nonempty : selectedKeys gitDir vars r ≠ []

/-- The same system, failing otherwise. -/
def Env.failing (env : Env) (fails : Nat → Bool) (short : Nat → Nat) (status : FileSystem → Bytes) : Env :=
  { env with fails, short, status }

theorem Lockable.failing (h : Lockable env attributes entries gitDir vars r) (fails : Nat → Bool) (short : Nat → Nat)
    (status : FileSystem → Bytes) : Lockable (env.failing fails short status) attributes entries gitDir vars r :=
  ⟨⟨h.answers.stream, h.answers.lines⟩, h.listing, h.located, h.exclusive, h.installed, h.nonempty⟩

/-! ### Where the keys are -/

theorem keyLocation_lockedKeyName (gitDir : Location) (dirent : Bytes) :
    keyLocation gitDir (lockedKeyName dirent) = dirent :: keysLocation gitDir := by
  rw [keyLocation, lockedKeyName_getD]
  rfl

theorem mem_selectedKeys (h : vars.allKeys = true) : keyName ∈ selectedKeys gitDir vars r ↔
    ∃ dirent, lockedKeyName dirent = keyName ∧ r.fs.find (keyLocation gitDir keyName) ≠ none := by
  rw [selectedKeys, if_pos h, List.mem_map]
  constructor
  · rintro ⟨dirent, hmem, rfl⟩
    refine ⟨dirent, rfl, ?_⟩
    rw [keyLocation_lockedKeyName]
    exact Option.isSome_iff_ne_none.mp (FileSystem.mem_children.mp hmem)
  · rintro ⟨dirent, rfl, hfind⟩
    rw [keyLocation_lockedKeyName] at hfind
    exact ⟨dirent, FileSystem.mem_children.mpr (Option.isSome_iff_ne_none.mpr hfind), rfl⟩

theorem Lockable.keysAt (h : Lockable env attributes entries gitDir vars r) : KeysAt env gitDir vars r := by
  refine ⟨fun keyName hmem => ?_, fun _ => ?_⟩
  · obtain ⟨bytes, hfile⟩ := h.installed keyName hmem
    have hsome : (r.fs.find (keyLocation gitDir keyName)).isSome = true := by rw [hfile]; rfl
    refine ⟨h.located.resolve_keyLocation (r.fs.named _ _ hsome) hsome, fun hd => ?_⟩
    rw [hfile] at hd
    cases hd
  · -- the keys are in a directory
    obtain ⟨keyName, hmem⟩ := List.exists_mem_of_ne_nil _ h.nonempty
    obtain ⟨bytes, hfile⟩ := h.installed keyName hmem
    have hdir : r.fs.find (keysLocation gitDir) = some .dir := FileSystem.find_parent hfile
    have hpath : internalKeysPath env = FileSystem.below (gitDirPath env) [str "git-crypt", str "keys"] := by
      simp only [internalKeysPath, FileSystem.below, List.flatMap_cons, List.flatMap_nil, List.append_nil,
        List.append_assoc]
      rfl
    refine ⟨?_, hdir⟩
    rw [hpath]
    exact FileSystem.resolve_below_of_find h.located (by decide) (Option.isSome_iff_exists.mpr ⟨_, hdir⟩)

/-- What a run leaves, however it ends: keys may be gone, and files are worked on once they
all are. -/
structure LeftBy (gitDir : Location) (keys : List (Option Bytes)) (r : Repo) (s : Repo × List Event) : Prop where
  tree : r.fs.RemovesOnly (KeyLocations gitDir keys) s.1.fs
  inOrder : s.2 ≠ [] → ∀ keyName ∈ keys, s.1.fs.find (keyLocation gitDir keyName) = none

theorem Removed.leftBy {names : List Bytes} {events : List Event} {s : Repo × List Event}
    (h : Removed env attributes names gitDir vars r events s) : LeftBy gitDir (selectedKeys gitDir vars r) r s :=
  ⟨h.keys.tree.removesOnly, fun _ keyName hmem => h.keys.tree.gone _ ⟨keyName, hmem, rfl⟩⟩

theorem Lockable.leftBy (h : Lockable env attributes entries gitDir vars r) {args : List Bytes}
    (hparse : parseOptions lockOptions {} args = .ok (vars, [])) {result : Except Exception Nat} {w : World}
    (hrun : lock env args (r.start env) = (result, w)) : LeftBy gitDir (selectedKeys gitDir vars r) r w.seen := by
  have hlock : Triple (fun w => w.seen = (r, [])) (lock env args)
      (fun _ w => LeftBy gitDir (selectedKeys gitDir vars r) r w.seen)
      fun _ w => LeftBy gitDir (selectedKeys gitDir vars r) r w.seen := by
    refine (lock_seen h.answers h.listing h.keysAt hparse h.exclusive).weaken (fun _ => id) ?_ ?_
    · rintro status w (⟨-, -, hw⟩ | ⟨events, hremoved, -⟩)
      · rw [hw]
        exact ⟨.refl _ _, fun hne => absurd rfl hne⟩
      · exact hremoved.leftBy
    · rintro e w (⟨hcut, -⟩ | ⟨events, hremoved, -⟩)
      · exact ⟨hcut.1, fun hne => absurd hcut.2 hne⟩
      · exact hremoved.leftBy
  have hend := hlock (r.start env) rfl
  rw [hrun] at hend
  cases result <;> exact hend

/-! ### What is left to the second run -/

/-- The keys are gone with their variables, and the files with their filters are as git has
them. -/
structure FullyLocked (env : Env) (attributes : Attributes) (entries : List IndexEntry) (gitDir : Location)
    (keys : List (Option Bytes)) (s : Repo × List Event) : Prop where
  removed : ∀ keyName ∈ keys, s.1.fs.find (keyLocation gitDir keyName) = none
  unset : ∀ keyName ∈ keys, ∀ v ∈ filterVariables keyName, getConfig s.1.config v = none
  restored : ∀ keyName ∈ keys, ∀ f ∈ encryptedNames attributes keyName (fileNames entries), Restored env s.1.fs s.2 f

/-- What is left of the keys is what `lock` can do, and it has done the rest: it starts from the
keys whose files are still there. -/
structure Completable (env : Env) (attributes : Attributes) (entries : List IndexEntry) (gitDir : Location)
    (vars : LockOptions) (keys : List (Option Bytes)) (s : Repo × List Event) : Prop where
  goesOn : GoesOn env gitDir vars s.1
  /-- Once the keys are removed, no file of theirs lies below something that is not a directory. -/
  touchable : ∀ f ∈ filesOfKeys attributes ((fileNames entries).map stripped) (selectedKeys gitDir vars s.1),
    ∀ fs, s.1.fs.Without (KeyLocations gitDir (selectedKeys gitDir vars s.1)) fs → Touchable env fs f
  found : ∀ keyName ∈ selectedKeys gitDir vars s.1, ∀ f ∈ encryptedNames attributes keyName (fileNames entries),
    f.head?.any isSpace = false
  finished : ∀ keyName ∈ keys, keyName ∉ selectedKeys gitDir vars s.1 →
    (∀ v ∈ filterVariables keyName, getConfig s.1.config v = none) ∧
      ∀ f ∈ encryptedNames attributes keyName (fileNames entries), Restored env s.1.fs s.2 f

theorem KeysAt.leftBy {s : Repo × List Event} (h : KeysAt env gitDir vars r)
    (hleft : LeftBy gitDir (selectedKeys gitDir vars r) r s) :
    KeysAt env gitDir vars s.1 ∧ ∀ keyName ∈ selectedKeys gitDir vars s.1, keyName ∈ selectedKeys gitDir vars r := by
  have hsub : ∀ keyName ∈ selectedKeys gitDir vars s.1, keyName ∈ selectedKeys gitDir vars r := by
    intro keyName hmem
    by_cases hall : vars.allKeys = true
    · obtain ⟨dirent, he, hfind⟩ := (mem_selectedKeys hall).mp hmem
      obtain ⟨node, hnode⟩ := Option.ne_none_iff_exists'.mp hfind
      exact (mem_selectedKeys hall).mpr ⟨dirent, he, by simp [hleft.tree.find hnode]⟩
    · rw [selectedKeys, if_neg hall] at hmem ⊢
      exact hmem
  refine ⟨⟨fun keyName hmem => KeyFileAt.removesOnly h.files hleft.tree keyName (hsub keyName hmem), fun hall => ?_⟩, hsub⟩
  have hdirs : r.fs.DirsIn s.1.fs := by
    refine hleft.tree.dirsIn ?_
    rintro loc ⟨keyName, hmem, rfl⟩
    exact (h.files keyName hmem).file
  exact ⟨FileSystem.resolve_of_dirsIn hdirs (h.directory hall).1, hdirs _ (h.directory hall).2⟩

section
variable {s : Repo × List Event} {args : List Bytes} {names : List Bytes} {events : List Event} {f : Bytes}

/-- Of a key that is left there is the file. -/
theorem GoesOn.present (h : GoesOn env gitDir vars r) (hmem : keyName ∈ selectedKeys gitDir vars r) :
    r.fs.find (keyLocation gitDir keyName) ≠ none := by
  by_cases hall : vars.allKeys = true
  · obtain ⟨dirent, -, hfind⟩ := (mem_selectedKeys hall).mp hmem
    exact hfind
  · rw [selectedKeys, if_neg hall] at hmem
    rw [List.mem_singleton.mp hmem]
    exact h.unlocked (by simpa using hall)

/-- A second run without a failure removes the keys that are left and restores their files, where
nothing stops it. -/
private theorem lock_again (hanswers : Answers env attributes)
    (hlisting : ∀ fs, env.lsFiles fs = entries.flatMap (·.line))
    (hkeys : KeysAt env gitDir vars r) (hparse : parseOptions lockOptions {} args = .ok (vars, []))
    (hexclusive : vars.allKeys = true → vars.keyName = none) (hreliable : Reliable env)
    {result : Except Exception Nat} {w : World} (hrun : lock env args (r.start env) = (result, w)) :
    (result = .ok 0 ↔ GoesOn env gitDir vars r ∧
      ∀ f ∈ filesOfKeys attributes ((fileNames entries).map stripped) (selectedKeys gitDir vars r),
        ∀ fs, r.fs.Without (KeyLocations gitDir (selectedKeys gitDir vars r)) fs → Touchable env fs f) ∧
    (result = .ok 0 → ∃ events, Removed env attributes ((fileNames entries).map stripped) gitDir vars r events w.seen ∧
      ∀ f ∈ filesOfKeys attributes ((fileNames entries).map stripped) (selectedKeys gitDir vars r),
        Restored env w.fs events f) := by
  have hnames : listedNames (entries.flatMap (·.line)) = (fileNames entries).map stripped := by
    rw [listedNames, listed_names]
    rfl
  have hlock := lock_seen hanswers hlisting hkeys hparse hexclusive (r.start env) rfl
  rw [hrun, hnames] at hlock
  -- the tree after the keys are removed is the same in every run
  have hsame {events : List Event}
      (hremoved : Removed env attributes ((fileNames entries).map stripped) gitDir vars r events w.seen)
      {fs : FileSystem} (hfs : r.fs.Without (KeyLocations gitDir (selectedKeys gitDir vars r)) fs) (f : Bytes) :
      Touchable env fs f ↔ Touchable env w.fs f := by
    have hstat : fs.stat env.cwd f = w.fs.stat env.cwd f := (FileSystem.stat_congr (hfs.find_eq hremoved.keys.tree) _ _).symm
    rw [Touchable, Touchable, hstat]
  cases result with
  | error e =>
    refine ⟨iff_of_false (by simp) ?_, by simp⟩
    rintro ⟨-, htouch⟩
    rcases hlock with ⟨-, hfail⟩ | ⟨events, hremoved, hstops⟩
    · exact hfail hreliable
    · obtain ⟨f, hf, hnot⟩ := hstops hreliable
      exact hnot (htouch f hf _ hremoved.keys.tree)
  | ok status =>
    rcases hlock with ⟨hnot, rfl, -⟩ | ⟨events, hremoved, hstatus, hdone⟩
    · exact ⟨iff_of_false (by simp) fun h => hnot h.1, by simp⟩
    · obtain rfl : status = 0 := hstatus hreliable
      refine ⟨iff_of_true rfl ⟨hremoved.goesOn hreliable, fun f hf fs hfs => ?_⟩, fun _ => ⟨events, hremoved, fun f hf => ?_⟩⟩
      · exact (hsame hremoved hfs f).mpr (hdone f hf).1
      · exact (hdone f hf).2 rfl

theorem Touched.mono {fs : FileSystem} {events' : List Event} (h : Touched env fs events f) (hsub : events ⊆ events') :
    Touched env fs events' f :=
  h.imp_left fun hmem => hsub hmem

theorem CheckedOut.mono {events' : List Event} (h : CheckedOut events f) (hsub : events ⊆ events') :
    CheckedOut events' f :=
  h.imp fun _ hran => ⟨hsub hran.1, hran.2⟩

theorem Touched.congr {fs fs' : FileSystem} (h : Touched env fs events f) (hfind : ∀ loc, fs'.find loc = fs.find loc) :
    Touched env fs' events f :=
  h.imp_right fun hstat => (FileSystem.stat_congr hfind _ _).trans hstat

private theorem head_of_stripped {name : Bytes} (h : f = stripped name) : f.head?.any isSpace = false := by
  by_contra hspace
  refine (stripped_ne_iff.mpr (by simpa using hspace)) ?_
  rw [h, stripped_stripped]

section
variable {s : Repo × List Event} (hleft : LeftBy gitDir keys r s) (hgoes : GoesOn env gitDir vars s.1)
  (hsub : ∀ keyName ∈ selectedKeys gitDir vars s.1, keyName ∈ keys)
include hleft hgoes hsub

/-- As long as there is a key no file has been worked on. -/
theorem LeftBy.silent (hmem : keyName ∈ selectedKeys gitDir vars s.1) : s.2 = [] := by
  by_contra hne
  exact hgoes.present hmem (hleft.inOrder hne keyName (hsub keyName hmem))

/-- Once files have been worked on the second run leaves the tree alone. -/
theorem LeftBy.same_tree {s' : Repo} (hremoved : KeysRemoved gitDir (selectedKeys gitDir vars s.1) s.1 s')
    (hne : s.2 ≠ []) (loc : Location) : s'.fs.find loc = s.1.fs.find loc := by
  refine hremoved.tree.kept loc ?_
  rintro ⟨keyName, hmem, -⟩
  exact hne (hleft.silent hgoes hsub hmem)

end

/-- Only files of the keys are worked on. -/
theorem WorkedOn.filter_of_mem {s s' : Repo × List Event} {names : List Bytes}
    (h : WorkedOn (filesOfKeys attributes names keys) s events s') {event : Event} (hmem : event ∈ events)
    (hf : f ∈ event.paths) : f ∈ names ∧ ∃ keyName ∈ keys, attributes.filter f = attributeName keyName :=
  mem_filesOfKeys.mp (h.onFiles event hmem hf)

section
variable {s s' : Repo × List Event}
  (hremoved : Removed env attributes ((fileNames entries).map stripped) gitDir vars s.1 events s')
  (hleft : LeftBy gitDir (selectedKeys gitDir vars r) r s) (hgoes : GoesOn env gitDir vars s.1)
  (hsub : ∀ keyName ∈ selectedKeys gitDir vars s.1, keyName ∈ selectedKeys gitDir vars r)
include hremoved hleft hgoes hsub

/-- If the second run ends in the locked state, it has found every file of its keys, and the first
run had finished with the others. -/
theorem FullyLocked.found_and_finished
    (h : FullyLocked env attributes entries gitDir (selectedKeys gitDir vars r) (s'.1, s.2 ++ events)) :
    (∀ keyName ∈ selectedKeys gitDir vars s.1, ∀ f ∈ encryptedNames attributes keyName (fileNames entries),
      f.head?.any isSpace = false) ∧
    ∀ keyName ∈ selectedKeys gitDir vars r, keyName ∉ selectedKeys gitDir vars s.1 →
      (∀ v ∈ filterVariables keyName, getConfig s.1.config v = none) ∧
        ∀ f ∈ encryptedNames attributes keyName (fileNames entries), Restored env s.1.fs s.2 f := by
  constructor
  · intro keyName hmem f hf
    obtain ⟨paths, hran, hpath⟩ := (h.restored keyName (hsub keyName hmem) f hf).2
    have hran : .ran (.gitCheckout paths) 0 ∈ s.2 ++ events := hran
    rw [hleft.silent hgoes hsub hmem, List.nil_append] at hran
    obtain ⟨name, -, hname⟩ := List.mem_map.mp (hremoved.worked.filter_of_mem hran hpath).1
    exact head_of_stripped hname.symm
  · intro keyName hmem hgone
    -- the second run does nothing for the other keys
    have hnot {event : Event} {f : Bytes} (hf : f ∈ encryptedNames attributes keyName (fileNames entries))
        (hevent : event ∈ s.2 ++ events) (hpath : f ∈ event.paths) : event ∈ s.2 := by
      refine (List.mem_append.mp hevent).resolve_right fun hlater => ?_
      obtain ⟨-, other, hother, hfilter⟩ := hremoved.worked.filter_of_mem hlater hpath
      obtain rfl : keyName = other :=
        attributeName_injective ((of_decide_eq_true (List.mem_filter.mp hf).2).symm.trans hfilter)
      exact hgone hother
    refine ⟨fun v hv => ?_, fun f hf => ?_⟩
    · rw [← hremoved.keys.others v fun other hother => filterSections_disjoint ?_ (configSection_mem hv)]
      · exact h.unset keyName hmem v hv
      · rintro rfl
        exact hgone hother
    · obtain ⟨htouched, paths, hran, hpath⟩ := h.restored keyName hmem f hf
      have hran := hnot hf hran hpath
      have hsame := hleft.same_tree hgoes hsub hremoved.keys (List.ne_nil_of_mem hran)
      refine ⟨?_, paths, hran, hpath⟩
      rcases htouched with htouched | hstat
      · exact .inl (hnot hf htouched (List.mem_singleton_self _))
      · exact .inr ((FileSystem.stat_congr hsame _ _).symm.trans hstat)

theorem Completable.fullyLocked (h : Completable env attributes entries gitDir vars (selectedKeys gitDir vars r) s)
    (hrestored : ∀ f ∈ filesOfKeys attributes ((fileNames entries).map stripped) (selectedKeys gitDir vars s.1),
      Restored env s'.1.fs events f) :
    FullyLocked env attributes entries gitDir (selectedKeys gitDir vars r) (s'.1, s.2 ++ events) := by
  refine ⟨fun keyName hmem => ?_, fun keyName hmem v hv => ?_, fun keyName hmem f hf => ?_⟩
  all_goals by_cases hthere : keyName ∈ selectedKeys gitDir vars s.1
  · exact hremoved.keys.tree.gone _ ⟨keyName, hthere, rfl⟩
  · -- it is not there before the second run
    by_contra hfind
    obtain ⟨node, hnode⟩ := Option.ne_none_iff_exists'.mp hfind
    have hbefore := hremoved.keys.tree.removesOnly.find hnode
    by_cases hall : vars.allKeys = true
    · obtain ⟨dirent, he, -⟩ := (mem_selectedKeys hall).mp hmem
      exact hthere ((mem_selectedKeys hall).mpr ⟨dirent, he, by simp [hbefore]⟩)
    · rw [selectedKeys, if_neg hall] at hthere hmem
      exact hthere hmem
  · exact hremoved.keys.unset keyName hthere v hv
  · refine (hremoved.keys.others v fun other hother => filterSections_disjoint ?_ (configSection_mem hv)).trans
      ((h.finished keyName hmem hthere).1 v hv)
    rintro rfl
    exact hthere hother
  · have hstripped : stripped f = f := by
      by_contra hne
      have hspace := stripped_ne_iff.mp hne
      rw [h.found keyName hthere f hf] at hspace
      cases hspace
    obtain ⟨hname, hfilter⟩ := List.mem_filter.mp hf
    have hlisted : f ∈ filesOfKeys attributes ((fileNames entries).map stripped) (selectedKeys gitDir vars s.1) :=
      mem_filesOfKeys.mpr ⟨List.mem_map.mpr ⟨f, hname, hstripped⟩, keyName, hthere, of_decide_eq_true hfilter⟩
    obtain ⟨htouched, hchecked⟩ := hrestored f hlisted
    exact ⟨htouched.mono (List.subset_append_right _ _), hchecked.mono (List.subset_append_right _ _)⟩
  · have hdone := (h.finished keyName hmem hthere).2 f hf
    obtain ⟨paths, hran, -⟩ := hdone.2
    have hsame := hleft.same_tree hgoes hsub hremoved.keys (List.ne_nil_of_mem hran)
    exact ⟨(hdone.1.congr hsame).mono (List.subset_append_left _ _), hdone.2.mono (List.subset_append_left _ _)⟩

end

/-- After a `lock` that may have failed anywhere, `lock` with the same arguments succeeds and ends
with everything locked if and only if what the first run has left can be completed. -/
theorem lock_completes_iff {fails : Nat → Bool} {short : Nat → Nat} {status : FileSystem → Bytes}
    (h : Lockable env attributes entries gitDir vars r) (hreliable : Reliable env)
    (hparse : parseOptions lockOptions {} args = .ok (vars, []))
    {result result' : Except Exception Nat} {w w' : World}
    (hfirst : lock (env.failing fails short status) args (r.start (env.failing fails short status)) = (result, w))
    (hagain : lock env args (w.toRepo.start env) = (result', w')) :
    result' = .ok 0 ∧
        FullyLocked env attributes entries gitDir (selectedKeys gitDir vars r) (w'.toRepo, w.seen.2 ++ w'.seen.2) ↔
      Completable env attributes entries gitDir vars (selectedKeys gitDir vars r) w.seen := by
  have hleft := (h.failing fails short status).leftBy hparse hfirst
  obtain ⟨hkeys, hsub⟩ := h.keysAt.leftBy hleft
  obtain ⟨hsucceeds, hdone⟩ := lock_again h.answers h.listing hkeys hparse h.exclusive hreliable hagain
  have hevents {events : List Event} (hremoved : Removed env attributes ((fileNames entries).map stripped) gitDir vars
      w.toRepo events w'.seen) : w'.seen.2 = events := by
    rw [hremoved.worked.seen, List.nil_append]
  constructor
  · rintro ⟨hok, hlocked⟩
    obtain ⟨hgoes, htouch⟩ := hsucceeds.mp hok
    obtain ⟨events, hremoved, -⟩ := hdone hok
    rw [hevents hremoved] at hlocked
    obtain ⟨hfound, hfinished⟩ := FullyLocked.found_and_finished (s := w.seen) hremoved hleft hgoes hsub hlocked
    exact ⟨hgoes, htouch, hfound, hfinished⟩
  · intro hcompletable
    have hok := hsucceeds.mpr ⟨hcompletable.goesOn, hcompletable.touchable⟩
    obtain ⟨events, hremoved, hrestored⟩ := hdone hok
    refine ⟨hok, ?_⟩
    rw [hevents hremoved]
    exact Completable.fullyLocked hremoved hleft hcompletable.goesOn hsub hcompletable hrestored

end

/-! ### A retry that is turned away -/

def secretFile : IndexEntry where
  mode := 0o100644
  objectId := str "d670460b4b4aece5915caf5c68d12f560a9fe3e4"
  stage := str "0"
  name := str "secret"
  objectId_isWord := spacedFile.objectId_isWord
  stage_isWord := spacedFile.stage_isWord
  name_noNul := by decide +kernel

/-- This file has the filter of the default key. -/
def secretAttributes : Attributes where
  filter name := if name = str "secret" then str "git-crypt" else str "unspecified"
  diff name := if name = str "secret" then str "git-crypt" else str "unspecified"
  filter_isValue name := by split_ifs <;> decide
  diff_isValue name := by split_ifs <;> decide

def secretEnv : Env := answeringEnv secretAttributes [secretFile]

/-- `lock` is interrupted right after it has removed the key. -/
def lockInterrupted : Except Exception Nat × World :=
  lock (secretEnv.failing (· = 4) (fun _ => 0) fun _ => []) []
    (initialised.start (secretEnv.failing (· = 4) (fun _ => 0) fun _ => []))

private theorem lockable_initialised :
    Lockable secretEnv secretAttributes [secretFile] [str ".git"] {} initialised where
  answers := answers_answeringEnv _ _
  listing _ := rfl
  located := by
    unfold Located
    decide +kernel
  exclusive h := by cases h
  installed keyName hmem := by
    obtain rfl := List.mem_singleton.mp hmem
    have hfile : initialised.fs.find (keyLocation [str ".git"] none) =
        some (.file (KeyFile.empty.add ⟨0, Buffer.zero, Buffer.zero⟩).store) := by decide +kernel
    exact ⟨_, hfile⟩
  nonempty := List.cons_ne_nil _ _

theorem lock_completes_iff_interrupted :
    ((lock secretEnv [] (lockInterrupted.2.toRepo.start secretEnv)).1 = .ok 0 ∧
      FullyLocked secretEnv secretAttributes [secretFile] [str ".git"] [none]
        ((lock secretEnv [] (lockInterrupted.2.toRepo.start secretEnv)).2.toRepo,
          lockInterrupted.2.seen.2 ++ (lock secretEnv [] (lockInterrupted.2.toRepo.start secretEnv)).2.seen.2)) ↔
      Completable secretEnv secretAttributes [secretFile] [str ".git"] {} [none] lockInterrupted.2.seen :=
  lock_completes_iff lockable_initialised (fun _ => rfl) rfl Prod.mk.eta.symm Prod.mk.eta.symm

/-- The second run takes the repository for locked, while its configuration and the decrypted
file are as they were. -/
theorem lock_interrupted_sticks :
    Lockable secretEnv secretAttributes [secretFile] [str ".git"] {} initialised ∧ Reliable secretEnv ∧
    lockInterrupted.1.isOk = false ∧
    (lock secretEnv [] (lockInterrupted.2.toRepo.start secretEnv)).1 = .ok 1 ∧
    encryptedNames secretAttributes none (fileNames [secretFile]) = [str "secret"] ∧
    lockInterrupted.2.seen.2 ++ (lock secretEnv [] (lockInterrupted.2.toRepo.start secretEnv)).2.seen.2 = [] ∧
    ∀ v ∈ filterVariables none,
      (getConfig (lock secretEnv [] (lockInterrupted.2.toRepo.start secretEnv)).2.config v).isSome = true := by
  refine ⟨lockable_initialised, fun _ => rfl, ?_⟩
  decide +kernel

end GitCrypt
