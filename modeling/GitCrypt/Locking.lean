import GitCrypt.Isolation
import GitCrypt.Queries

/-! What a run of `lock` does to the repository and what is seen of it, and what it leaves when it
fails: keys are removed first, and files are worked on once all of them are gone. -/
namespace GitCrypt
open Iostream Posix IStream
variable {α β : Type} {env : Env} {s : Repo × List Event}

/-! ### Single steps -/

/-- An operation only fails when the system does. -/
abbrev Works (env : Env) (m : Action α) : Prop := Triple (fun _ => True) m (fun _ _ => True) fun _ _ => ¬ Reliable env

theorem execCommand_works {command : Command} (h : ∀ w : World, (command.run env w).1 = 0)
    {f : Nat × Bytes → Action β} (hf : ∀ status output, (Reliable env → status = 0) → Works env (f (status, output))) :
    Works env (execCommand env command >>= f) := by
  refine Triple.bind (R := fun out _ => True ∧ (Reliable env → out.1 = 0)) ?_ fun out => .assuming fun hout => ?_
  · intro w _
    unfold execCommand
    by_cases hfails : env.fails w.ops = true
    · rw [if_pos hfails]
      exact ⟨trivial, fun hreliable => by simp [hreliable w.ops] at hfails⟩
    · rw [if_neg hfails]
      exact ⟨trivial, fun _ => h w⟩
  · exact hf out.1 out.2 hout

theorem requireSuccess_reliable {P : World → Prop} {E : Exception → World → Prop} {status : Nat}
    (h : Reliable env → status = 0) (hE : ∀ e w, P w → ¬ Reliable env → E e w) (e : Exception) :
    Triple P (requireSuccess status e) (fun _ => P) E := by
  refine .ite (fun _ => .pure fun _ hw => hw) fun hfailed => .throw fun w hw => hE e w hw fun hreliable => hfailed ?_
  rw [h hreliable]
  rfl

theorem requireSuccess_works {status : Nat} (h : Reliable env → status = 0) (e : Exception) :
    Works env (requireSuccess status e) :=
  requireSuccess_reliable h (fun _ _ _ hfail => hfail) e

theorem gitVersion_works : Works env (gitVersion env) := by
  refine .bind (R := fun _ _ => True) (fun _ _ => trivial) fun w => ?_
  split
  · exact .pure fun _ _ => trivial
  · refine .bind (R := fun _ _ => True) ?_ fun version => .bind (R := fun _ _ => True) (fun _ _ => trivial) fun _ =>
      .pure fun _ _ => trivial
    refine execCommand_works (fun _ => rfl) fun status output hs => ?_
    exact .bind (requireSuccess_works hs _) fun _ => .pure fun _ _ => trivial

theorem filterAttributes_works (filenames : List Bytes) : Works env (filterAttributes env filenames) := by
  induction filenames with
  | nil => exact .pure fun _ _ => trivial
  | cons filename filenames ih =>
    refine .bind (R := fun _ _ => True) ?_ fun attrs => .bind ih fun rest => .pure fun _ _ => trivial
    refine execCommand_works (fun _ => rfl) fun status output hs => ?_
    exact .bind (requireSuccess_works hs _) fun _ => .pure fun _ _ => trivial

theorem getEncryptedFiles_works (keyName : Option Bytes) : Works env (getEncryptedFiles env keyName) := by
  refine .bind (R := fun _ _ => True) ?_ fun pathToTop => ?_
  · refine execCommand_works (fun _ => rfl) fun status output hs => ?_
    exact .bind (requireSuccess_works hs _) fun _ => .pure fun _ _ => trivial
  refine execCommand_works (fun _ => rfl) fun lsFilesStatus output hs => ?_
  refine .bind gitVersion_works fun version => .ite (fun _ => ?_) fun _ => ?_
  · refine execCommand_works (fun _ => rfl) fun checkAttrStatus _ hs' => ?_
    exact .bind (requireSuccess_works hs _) fun _ => .bind (requireSuccess_works hs' _) fun _ => .pure fun _ _ => trivial
  · refine .bind (filterAttributes_works _) fun attrs => ?_
    exact .bind (requireSuccess_works hs _) fun _ => .pure fun _ _ => trivial

/-- The listed files of a key are found, or the system has failed. -/
theorem getEncryptedFiles_seen {attributes : Attributes} (h : Answers env attributes) (keyName : Option Bytes) :
    Triple (fun w => w.seen = s) (getEncryptedFiles env keyName)
      (fun files w => w.seen = s ∧ files = encryptedNames attributes keyName (listedNames (env.lsFiles s.1.fs)))
      fun _ w => w.seen = s ∧ ¬ Reliable env := by
  have hfound := (@getEncryptedFiles_quiet env keyName).triple (· = s)
  have hlists := getEncryptedFiles_lists h keyName (env.lsFiles s.1.fs)
  refine ((Triple.conj hfound (getEncryptedFiles_works keyName)).conj hlists).weaken (fun w hw => ?_) ?_ ?_
  · exact ⟨⟨hw, trivial⟩, congrArg (fun s => env.lsFiles s.1.fs) hw⟩
  · exact fun files w hw => ⟨hw.1.1, hw.2⟩
  · exact fun e w hw => hw.1

theorem removeFile_seen {path : Bytes} {loc : Location} (hr : s.1.fs.resolve env.cwd path = .ok loc)
    (hf : s.1.fs.find loc ≠ some .dir) :
    Triple (fun w => w.seen = s) (removeFile env path)
      (fun _ w => ∃ fs, w.seen = ({ s.1 with fs }, s.2) ∧ s.1.fs.Without (· = loc) fs)
      fun _ w => w.seen = s ∧ ¬ Reliable env := by
  refine .bind (R := fun res w => (res = .ok () ∨ res = .error .enoent) ∧
    (∃ fs, w.seen = ({ s.1 with fs }, s.2) ∧ s.1.fs.Without (· = loc) fs) ∨
      res = .error .eio ∧ w.seen = s ∧ ¬ Reliable env) ?_ fun res => ?_
  · refine syscall_edit_seen (Q := fun res s' => (res = .ok () ∨ res = .error .enoent) ∧
      (∃ fs, s' = ({ s.1 with fs }, s.2) ∧ s.1.fs.Without (· = loc) fs) ∨ res = .error .eio ∧ s' = s ∧ ¬ Reliable env)
      (fun _ => rfl) (fun hfail => .inr ⟨rfl, rfl, hfail⟩) (fun e he => ?_) fun fs he => ?_
    · rcases FileSystem.unlink_without hr hf with ⟨fs, hu, -⟩ | ⟨hu, hgone⟩
      · rw [hu] at he
        cases he
      · rw [hu] at he
        cases he
        exact .inl ⟨.inr rfl, s.1.fs, rfl, hgone⟩
    · rcases FileSystem.unlink_without hr hf with ⟨fs', hu, hgone⟩ | ⟨hu, -⟩
      · rw [hu] at he
        cases he
        exact .inl ⟨.inl rfl, fs, rfl, hgone⟩
      · rw [hu] at he
        cases he
  · rintro w (⟨rfl | rfl, hw⟩ | ⟨rfl, hw⟩)
    · exact hw
    · exact hw
    · exact hw

/-! ### The configuration -/

theorem gitHasAnyConfig_learns (names : List Bytes) : Learns env s (gitHasAnyConfig env names)
    (some (names.any fun name => (getConfig s.1.config name).isSome)) := by
  induction names with
  | nil => exact .pure false
  | cons name names ih =>
    refine (gitHasConfig_learns name).andThen ?_
    cases hconfig : (getConfig s.1.config name).isSome with
    | true =>
      rw [List.any_cons, hconfig]
      exact .pure true
    | false =>
      rw [List.any_cons, hconfig]
      exact ih

/-- Only the configuration is different. -/
def Reconfigured (s s' : Repo × List Event) : Prop := ∃ config, s' = ({ s.1 with config }, s.2)

theorem gitDeconfig_reconfigures {name : Bytes} (h : s.1.config.any (configSection ·.1 = name) = true) :
    Triple (fun w => w.seen = s) (gitDeconfig env name) (fun _ w => Reconfigured s w.seen)
      fun _ w => Reconfigured s w.seen ∧ ¬ Reliable env := by
  refine .bind (R := fun out w => Reconfigured s w.seen ∧ (Reliable env → out.1 = 0)) ?_ fun out =>
    .assuming fun hout => requireSuccess_reliable hout (fun _ _ => And.intro) _
  refine execCommand_seen (Q := fun out s' => Reconfigured s s' ∧ (Reliable env → out.1 = 0)) (fun _ => rfl)
    (fun hfail => ⟨⟨s.1.config, rfl⟩, fun hreliable => absurd hreliable hfail⟩) ?_
  rintro w rfl
  have hany : w.config.any (configSection ·.1 = name) = true := h
  simp only [Command.run, if_pos hany]
  exact ⟨⟨_, rfl⟩, fun _ => trivial⟩

/-- A variable that is found lies in a section. -/
private theorem any_section_of_getConfig {config : List (Bytes × Bytes)} {v : Bytes}
    (h : (getConfig config v).isSome = true) :
    config.any (configSection ·.1 = configSection v) = true := by
  obtain ⟨value, hvalue⟩ := Option.isSome_iff_exists.mp h
  obtain ⟨p, hp, -⟩ := Option.map_eq_some_iff.mp hvalue
  have hname : p.1 = v := by simpa using List.find?_some hp
  refine List.any_eq_true.mpr ⟨p, List.mem_of_find?_eq_some hp, ?_⟩
  rw [hname]
  exact decide_eq_true rfl

theorem Reconfigured.trans {s' s'' : Repo × List Event} (h : Reconfigured s s') (h' : Reconfigured s' s'') :
    Reconfigured s s'' := by
  obtain ⟨config, rfl⟩ := h
  obtain ⟨config', rfl⟩ := h'
  exact ⟨config', rfl⟩

private theorem deconfigureGitFilters_reconfigures (keyName : Option Bytes) :
    Triple (fun w => w.seen = s) (deconfigureGitFilters env keyName) (fun _ w => Reconfigured s w.seen)
      fun _ w => Reconfigured s w.seen ∧ ¬ Reliable env := by
  have hkeep {w : World} (hw : w.seen = s) : Reconfigured s w.seen := ⟨s.1.config, hw⟩
  have hsection {v name : Bytes} (hv : configSection v = name) {config : List (Bytes × Bytes)}
      (h : (getConfig config v).isSome = true) : config.any (configSection ·.1 = name) = true :=
    hv ▸ any_section_of_getConfig h
  have hdiff (s' : Repo × List Event) (hs : Reconfigured s s') : Triple (fun w => w.seen = s') (do
      if ← gitHasConfig env (str "diff." ++ attributeName keyName ++ str ".textconv") then
        gitDeconfig env (str "diff." ++ attributeName keyName)) (fun _ w => Reconfigured s w.seen)
      fun _ w => Reconfigured s w.seen ∧ ¬ Reliable env := by
    refine .bind ((gitHasConfig_learns _).triple.weakenError fun e w hw => ?_) fun found =>
      .assuming fun hfound => .ite (fun h => ?_) fun _ => .pure fun w hw => hw ▸ hs
    · exact ⟨hw.1 ▸ hs, hw.2⟩
    · refine (gitDeconfig_reconfigures (hsection (configSection_append _ rfl (by decide)) (hfound ▸ h))).weaken
        (fun _ => id) (fun _ w hw => hs.trans hw) fun _ w hw => ⟨hs.trans hw.1, hw.2⟩
  refine .bind ((gitHasAnyConfig_learns _).triple.weakenError fun e w hw => ?_) fun found =>
    .assuming fun hfound => .ite (fun h => ?_) fun _ => hdiff s ⟨s.1.config, rfl⟩
  · exact ⟨hkeep hw.1, hw.2⟩
  · have hany : s.1.config.any (configSection ·.1 = str "filter." ++ attributeName keyName) = true := by
      rw [hfound] at h
      obtain ⟨v, hv, hset⟩ := List.any_eq_true.mp h
      refine hsection ?_ hset
      simp only [List.mem_cons, List.not_mem_nil, or_false] at hv
      rcases hv with rfl | rfl | rfl <;> exact configSection_append _ rfl (by decide)
    refine .bind (gitDeconfig_reconfigures hany) fun _ => ?_
    exact .of_start fun w hw => (hdiff w.seen hw).pre fun w' he => he ▸ rfl

/-- The variables of the key are gone, and the others are as they were. -/
theorem deconfigureGitFilters_seen (keyName : Option Bytes) :
    Triple (fun w => w.seen = s) (deconfigureGitFilters env keyName)
      (fun _ w => ∃ config, w.seen = ({ s.1 with config }, s.2) ∧
        (∀ v ∈ filterVariables keyName, getConfig config v = none) ∧
        ∀ v, configSection v ∉ filterSections keyName → getConfig config v = getConfig s.1.config v)
      fun _ w => Reconfigured s w.seen ∧ ¬ Reliable env := by
  refine ((deconfigureGitFilters_reconfigures keyName).conj (deconfigureGitFilters_returns s.1 keyName)).weaken
    (fun w hw => ⟨hw, congrArg Prod.fst hw⟩) ?_ fun _ w hw => hw.1
  rintro _ w ⟨⟨config, hw⟩, hfrom, hnone⟩
  have hconfig : w.config = config := congrArg (·.1.config) hw
  rw [hconfig] at hnone
  refine ⟨config, hw, hnone, fun v hv => ?_⟩
  rw [← hfrom.2 v hv, hconfig]

/-! ### Removing keys -/

section
variable {gitDir : Location} {keyName : Option Bytes} {keys : List (Option Bytes)} {r r' r'' : Repo}

/-- Where the key files of some names lie. -/
def KeyLocations (gitDir : Location) (keys : List (Option Bytes)) (loc : Location) : Prop :=
  ∃ keyName ∈ keys, loc = keyLocation gitDir keyName

/-- The path of a key leads to its place, where no directory is. -/
structure KeyFileAt (env : Env) (gitDir : Location) (keyName : Option Bytes) (fs : FileSystem) : Prop where
  leads : fs.resolve env.cwd (internalKeyPath env keyName) = .ok (keyLocation gitDir keyName)
  file : fs.find (keyLocation gitDir keyName) ≠ some .dir

/-- The key files of these names and their variables are gone, and nothing else. -/
structure KeysRemoved (gitDir : Location) (keys : List (Option Bytes)) (r r' : Repo) : Prop where
  tree : r.fs.Without (KeyLocations gitDir keys) r'.fs
  unset : ∀ keyName ∈ keys, ∀ v ∈ filterVariables keyName, getConfig r'.config v = none
  others : ∀ v, (∀ keyName ∈ keys, configSection v ∉ filterSections keyName) →
    getConfig r'.config v = getConfig r.config v

theorem KeyFileAt.removesOnly {fs fs' : FileSystem} (hkeys : ∀ keyName ∈ keys, KeyFileAt env gitDir keyName fs)
    (h : fs.RemovesOnly (KeyLocations gitDir keys) fs') : ∀ keyName ∈ keys, KeyFileAt env gitDir keyName fs' := by
  have hdirs : fs.DirsIn fs' := h.dirsIn fun loc ⟨keyName, hmem, he⟩ => he ▸ (hkeys keyName hmem).file
  refine fun keyName hmem => ⟨FileSystem.resolve_of_dirsIn hdirs (hkeys keyName hmem).leads, fun hd => ?_⟩
  exact (hkeys keyName hmem).file (h.find hd)

theorem KeysRemoved.nil (gitDir : Location) (r : Repo) : KeysRemoved gitDir [] r r where
  tree := ⟨fun _ ⟨_, hmem, _⟩ => absurd hmem List.not_mem_nil, fun _ _ => rfl⟩
  unset _ hmem := by cases hmem
  others _ _ := rfl

theorem KeysRemoved.cons (h : KeysRemoved gitDir [keyName] r r') (h' : KeysRemoved gitDir keys r' r'') :
    KeysRemoved gitDir (keyName :: keys) r r'' where
  tree := (h.tree.trans h'.tree).congr fun loc => by simp [KeyLocations]
  unset := by
    refine List.forall_mem_cons.mpr ⟨fun v hv => ?_, h'.unset⟩
    by_cases hmem : keyName ∈ keys
    · exact h'.unset keyName hmem v hv
    · -- the variables of other keys are in other sections
      rw [h'.others v fun other hother => filterSections_disjoint ?_ (configSection_mem hv)]
      · exact h.unset keyName (List.mem_singleton_self _) v hv
      · rintro rfl
        exact hmem hother
  others v hv := by
    obtain ⟨hfirst, hrest⟩ := List.forall_mem_cons.mp hv
    rw [h'.others v hrest, h.others v (by simpa using hfirst)]

/-- Of a run that was cut off nothing is seen but that keys are gone. -/
def CutOff (gitDir : Location) (keys : List (Option Bytes)) (s s' : Repo × List Event) : Prop :=
  s.1.fs.RemovesOnly (KeyLocations gitDir keys) s'.1.fs ∧ s'.2 = s.2

variable {attributes : Attributes} {output : Bytes}

theorem lockKey_seen (h : Answers env attributes) (hlisting : ∀ fs, env.lsFiles fs = output)
    (hkey : KeyFileAt env gitDir keyName s.1.fs) :
    Triple (fun w => w.seen = s) (lockKey env keyName (internalKeyPath env keyName))
      (fun files w => (KeysRemoved gitDir [keyName] s.1 w.toRepo ∧ w.seen.2 = s.2) ∧
        files = encryptedNames attributes keyName (listedNames output))
      fun _ w => CutOff gitDir [keyName] s w.seen ∧ ¬ Reliable env := by
  have hlocations (loc : Location) : loc = keyLocation gitDir keyName ↔ KeyLocations gitDir [keyName] loc := by
    simp [KeyLocations]
  refine .bind ((removeFile_seen hkey.leads hkey.file).weakenError ?_) fun _ => ?_
  · rintro e w ⟨rfl, hfail⟩
    exact ⟨⟨.refl _ _, rfl⟩, hfail⟩
  refine .of_start fun w₁ ⟨fs, hw₁, hgone⟩ => ?_
  have htree := hgone.congr hlocations
  refine .bind (((deconfigureGitFilters_seen keyName).pre fun w he => he ▸ hw₁).weakenError ?_)
    fun _ => ?_
  · rintro e w ⟨⟨config, hw⟩, hfail⟩
    rw [hw]
    exact ⟨⟨htree.removesOnly, rfl⟩, hfail⟩
  refine .of_start fun w₂ ⟨config, hw₂, hnone, hothers⟩ => ?_
  have hremoved : KeysRemoved gitDir [keyName] s.1 { s.1 with fs, config } := by
    refine ⟨htree, ?_, fun v hv => hothers v (hv keyName (List.mem_singleton_self _))⟩
    intro other hother
    obtain rfl := List.mem_singleton.mp hother
    exact hnone
  refine (@getEncryptedFiles_seen env ({ s.1 with fs, config }, s.2) _ h keyName).weaken (fun w he => he ▸ hw₂) ?_ ?_
  · rintro files w ⟨hw, hfiles⟩
    have hrepo : w.toRepo = { s.1 with fs, config } := by
      have he := congrArg Prod.fst hw
      exact he
    have hevents : w.seen.2 = s.2 := by rw [hw]
    refine ⟨⟨?_, hevents⟩, ?_⟩
    · rw [hrepo]
      exact hremoved
    rw [hfiles, hlisting]
  · rintro e w ⟨hw, hfail⟩
    rw [hw]
    exact ⟨⟨htree.removesOnly, rfl⟩, hfail⟩

/-- The files of some keys. -/
def filesOfKeys (attributes : Attributes) (names : List Bytes) (keys : List (Option Bytes)) : List Bytes :=
  keys.flatMap fun keyName => encryptedNames attributes keyName names

theorem lockKeys_seen (h : Answers env attributes) (hlisting : ∀ fs, env.lsFiles fs = output) {dirents : List Bytes}
    (hkeys : ∀ keyName ∈ dirents.map lockedKeyName, KeyFileAt env gitDir keyName s.1.fs) :
    Triple (fun w => w.seen = s) (lockKeys env dirents)
      (fun files w => (KeysRemoved gitDir (dirents.map lockedKeyName) s.1 w.toRepo ∧ w.seen.2 = s.2) ∧
        files = filesOfKeys attributes (listedNames output) (dirents.map lockedKeyName))
      fun _ w => CutOff gitDir (dirents.map lockedKeyName) s w.seen ∧ ¬ Reliable env := by
  induction dirents generalizing s with
  | nil => exact .pure fun w hw => by subst hw; exact ⟨⟨.nil _ _, rfl⟩, rfl⟩
  | cons dirent dirents ih =>
    rw [List.map_cons] at hkeys ⊢
    have hfirst := hkeys _ List.mem_cons_self
    refine .bind ((getInternalKeyPath_learns _).triple.weakenError ?_) fun path =>
      .assuming ?_
    · rintro e w ⟨rfl, hfail⟩
      exact ⟨⟨.refl _ _, rfl⟩, hfail⟩
    rintro rfl
    have hsub (loc : Location) (hloc : KeyLocations gitDir [lockedKeyName dirent] loc) :
        KeyLocations gitDir (lockedKeyName dirent :: dirents.map lockedKeyName) loc := by
      obtain ⟨keyName, hmem, he⟩ := hloc
      exact ⟨keyName, List.mem_cons.mpr (.inl (List.mem_singleton.mp hmem)), he⟩
    refine .bind ((lockKey_seen h hlisting hfirst).weakenError ?_) fun files => ?_
    · rintro e w ⟨⟨htree, hevents⟩, hfail⟩
      exact ⟨⟨htree.mono hsub, hevents⟩, hfail⟩
    refine .of_start fun w₁ ⟨⟨hremoved, hevents⟩, hfiles⟩ => ?_
    have hleft := hremoved.tree.removesOnly.mono hsub
    have hrest := KeyFileAt.removesOnly hkeys hleft
    refine .bind ((ih (s := w₁.seen) fun keyName hmem => hrest keyName (List.mem_cons_of_mem _ hmem)).weaken
      (fun w he => he ▸ rfl) (fun _ _ => id) ?_) fun rest => .pure ?_
    · rintro e w ⟨⟨htree, hevents'⟩, hfail⟩
      refine ⟨⟨hleft.trans (htree.mono fun loc hloc => ?_), hevents'.trans hevents⟩, hfail⟩
      obtain ⟨keyName, hmem, he⟩ := hloc
      exact ⟨keyName, List.mem_cons_of_mem _ hmem, he⟩
    · rintro w ⟨⟨hremoved', hevents'⟩, hfiles'⟩
      refine ⟨⟨hremoved.cons hremoved', hevents'.trans hevents⟩, ?_⟩
      rw [hfiles, hfiles', filesOfKeys, filesOfKeys, List.flatMap_cons]

end

/-! ### The files -/

section
variable {files files' : List Bytes} {s' s'' : Repo × List Event} {events events' : List Event}

/-- Some files were touched or checked out, and nothing else was seen. -/
structure WorkedOn (files : List Bytes) (s : Repo × List Event) (events : List Event) (s' : Repo × List Event) :
    Prop where
  seen : s' = (s.1, s.2 ++ events)
  onFiles : ∀ event ∈ events, event.paths ⊆ files

theorem WorkedOn.nil (files : List Bytes) (s : Repo × List Event) : WorkedOn files s [] s :=
  ⟨by rw [List.append_nil], fun _ hmem => absurd hmem List.not_mem_nil⟩

theorem WorkedOn.trans (h : WorkedOn files s events s') (h' : WorkedOn files s' events' s'') :
    WorkedOn files s (events ++ events') s'' := by
  refine ⟨?_, fun event hmem => (List.mem_append.mp hmem).elim (h.onFiles event) (h'.onFiles event)⟩
  rw [h'.seen, h.seen, List.append_assoc]

theorem WorkedOn.mono (h : WorkedOn files s events s') (hsub : files ⊆ files') : WorkedOn files' s events s' :=
  ⟨h.seen, fun event hmem => List.Subset.trans (h.onFiles event hmem) hsub⟩

theorem WorkedOn.single {event : Event} (h : event.paths ⊆ files) (hs : s' = (s.1, s.2 ++ [event])) :
    WorkedOn files s [event] s' :=
  ⟨hs, fun _ hmem => List.mem_singleton.mp hmem ▸ h⟩

/-- Touching the file does not stop the program. -/
def Touchable (env : Env) (fs : FileSystem) (filename : Bytes) : Prop :=
  ∀ e, fs.stat env.cwd filename = .error e → e = .enoent

/-- The file has been touched, if it is there. -/
def Touched (env : Env) (fs : FileSystem) (events : List Event) (filename : Bytes) : Prop :=
  .called (.utimes filename) true ∈ events ∨ fs.stat env.cwd filename = .error .enoent

theorem touchFile_seen (filename : Bytes) :
    Triple (fun w => w.seen = s) (touchFile env filename)
      (fun _ w => ∃ events, WorkedOn [filename] s events w.seen ∧ Touched env s.1.fs events filename ∧
        Touchable env s.1.fs filename)
      fun _ w => ∃ events, WorkedOn [filename] s events w.seen ∧ (Reliable env → ¬ Touchable env s.1.fs filename) := by
  have hshown {w : World} (ok : Bool) :
      WorkedOn [filename] w.seen [.called (.utimes filename) ok] (w.note (.called (.utimes filename) ok)).seen :=
    .single (List.Subset.refl _) (World.seen_note_of_visible rfl)
  refine .bind (R := fun res w => ∃ ok, WorkedOn [filename] s [.called (.utimes filename) ok] w.seen ∧
    (res = (s.1.fs.stat env.cwd filename).map (fun _ => ()) ∧ (ok = true ↔ res = .ok ()) ∨
      ¬ Reliable env ∧ res = .error .eio)) ?_ fun res => ?_
  · rintro w rfl
    unfold syscall
    dsimp only
    split_ifs with hf
    · exact ⟨false, hshown false, .inr ⟨fun hreliable => by simp [hreliable w.ops] at hf, rfl⟩⟩
    · cases hs : w.fs.stat env.cwd filename with
      | error e => exact ⟨false, hshown false, .inl ⟨by rw [World.seen, hs]; rfl, by simp⟩⟩
      | ok node => exact ⟨true, hshown true, .inl ⟨by rw [World.seen, hs]; rfl, by simp⟩⟩
  · rintro w ⟨ok, hworked, ⟨hres, hok⟩ | ⟨hfail, rfl⟩⟩
    · cases hs : s.1.fs.stat env.cwd filename with
      | ok node =>
        rw [hs] at hres
        subst hres
        refine ⟨_, hworked, .inl ?_, fun e he => ?_⟩
        · rw [hok.mpr rfl]
          exact List.mem_singleton_self _
        · rw [hs] at he
          cases he
      | error e =>
        rw [hs] at hres
        subst hres
        rcases FileSystem.stat_error hs with rfl | rfl
        · refine ⟨_, hworked, .inr hs, fun e he => ?_⟩
          rw [hs] at he
          exact (Except.error.inj he).symm
        · refine ⟨_, hworked, fun _ htouch => ?_⟩
          cases htouch _ hs
    · exact ⟨_, hworked, fun hreliable => absurd hreliable hfail⟩

private theorem touchFiles_seen (files : List Bytes) :
    Triple (fun w => w.seen = s) (forM files (touchFile env))
      (fun _ w => ∃ events, WorkedOn files s events w.seen ∧
        ∀ f ∈ files, Touched env s.1.fs events f ∧ Touchable env s.1.fs f)
      fun _ w => ∃ events, WorkedOn files s events w.seen ∧ (Reliable env → ∃ f ∈ files, ¬ Touchable env s.1.fs f) := by
  induction files generalizing s with
  | nil => exact .pure fun w hw => ⟨[], hw ▸ .nil _ _, fun f hf => absurd hf List.not_mem_nil⟩
  | cons filename files ih =>
    rw [List.forM_cons]
    have hfirst : [filename] ⊆ filename :: files := List.cons_subset_cons _ (List.nil_subset _)
    refine .bind ((touchFile_seen filename).weakenError ?_) fun _ => ?_
    · rintro e w ⟨events, hworked, hstops⟩
      exact ⟨events, hworked.mono hfirst, fun hreliable => ⟨filename, List.mem_cons_self, hstops hreliable⟩⟩
    refine .of_start fun w₁ ⟨events, hworked, htouched, htouch⟩ => ?_
    have hrepo : w₁.seen.1 = s.1 := by rw [hworked.seen]
    refine (ih (s := w₁.seen)).weaken (fun w he => he ▸ rfl) ?_ ?_
    · rintro _ w ⟨events', hworked', hall⟩
      rw [hrepo] at hall
      refine ⟨_, (hworked.mono hfirst).trans (hworked'.mono (List.subset_cons_self _ _)), ?_⟩
      refine List.forall_mem_cons.mpr ⟨⟨?_, htouch⟩, fun f hf => ⟨?_, (hall f hf).2⟩⟩
      · exact htouched.imp_left (List.mem_append_left _)
      · exact (hall f hf).1.imp_left (List.mem_append_right _)
    · rintro e w ⟨events', hworked', hstops⟩
      refine ⟨_, (hworked.mono hfirst).trans (hworked'.mono (List.subset_cons_self _ _)), fun hreliable => ?_⟩
      obtain ⟨f, hf, hnot⟩ := hstops hreliable
      exact ⟨f, List.mem_cons_of_mem _ hf, hrepo ▸ hnot⟩

/-- A checkout of the file has succeeded. -/
def CheckedOut (events : List Event) (filename : Bytes) : Prop :=
  ∃ paths, .ran (.gitCheckout paths) 0 ∈ events ∧ filename ∈ paths

theorem gitCheckoutBatch_seen (paths : List Bytes) {E : Exception → World → Prop} :
    Triple (fun w => w.seen = s) (gitCheckoutBatch env paths)
      (fun ok w => ∃ events, WorkedOn paths s events w.seen ∧ (ok = true → ∀ f ∈ paths, CheckedOut events f) ∧
        (Reliable env → ok = true)) E := by
  refine .ite (fun hnil => .pure fun w hw => ⟨[], hw ▸ .nil _ _, fun _ f hf => ?_, fun _ => rfl⟩) fun _ => ?_
  · rw [hnil] at hf
    cases hf
  refine .bind (execCommand_shown (0, []) rfl (fun _ => rfl) fun _ => rfl) fun out => .pure ?_
  rintro w ⟨hw, hout⟩
  refine ⟨_, .single (List.Subset.refl _) hw, fun hok f hf => ⟨paths, ?_, hf⟩, fun hreliable => ?_⟩
  · have hzero : out.1 = 0 := by simpa [successfulExit] using hok
    rw [hzero]
    exact List.mem_singleton_self _
  · rw [hout hreliable]
    rfl

theorem gitCheckout_seen (paths : List Bytes) {E : Exception → World → Prop} :
    Triple (fun w => w.seen = s) (gitCheckout env paths)
      (fun ok w => ∃ events, WorkedOn paths s events w.seen ∧ (ok = true → ∀ f ∈ paths, CheckedOut events f) ∧
        (Reliable env → ok = true)) E := by
  fun_induction gitCheckout env paths generalizing s with
  | case1 paths hlength ih =>
    refine .bind (gitCheckoutBatch_seen _) fun ok => .ite (fun hfailed => .pure ?_) fun hok => ?_
    · rintro w ⟨events, hworked, -, hreliable⟩
      have hfalse : ok = false := by simpa using hfailed
      refine ⟨events, hworked.mono (List.take_subset _ _), fun h => ?_, fun h => hfalse ▸ hreliable h⟩
      cases h
    · refine .of_start ?_
      rintro w₁ ⟨events, hworked, hdone, -⟩
      refine (ih (s := w₁.seen)).weaken (fun w he => he ▸ rfl) ?_ fun _ _ => id
      rintro ok w ⟨events', hworked', hdone', hreliable⟩
      refine ⟨_, (hworked.mono (List.take_subset _ _)).trans (hworked'.mono (List.drop_subset _ _)), ?_, hreliable⟩
      intro h f hf
      rw [← List.take_append_drop gitCheckoutBatchSize paths] at hf
      rcases List.mem_append.mp hf with hf | hf
      · obtain ⟨batch, hran, hmem⟩ := hdone (by simpa using hok) f hf
        exact ⟨batch, List.mem_append_left _ hran, hmem⟩
      · obtain ⟨batch, hran, hmem⟩ := hdone' h f hf
        exact ⟨batch, List.mem_append_right _ hran, hmem⟩
  | case2 paths hlength => exact gitCheckoutBatch_seen paths

/-- The file is as git has it, after it has been touched. -/
def Restored (env : Env) (fs : FileSystem) (events : List Event) (filename : Bytes) : Prop :=
  Touched env fs events filename ∧ CheckedOut events filename

theorem checkOutFiles_seen (files failure : List Bytes) :
    Triple (fun w => w.seen = s) (checkOutFiles env files failure)
      (fun status w => ∃ events, WorkedOn files s events w.seen ∧ (Reliable env → status = 0) ∧
        ∀ f ∈ files, Touchable env s.1.fs f ∧ (status = 0 → Restored env s.1.fs events f))
      fun _ w => ∃ events, WorkedOn files s events w.seen ∧ (Reliable env → ∃ f ∈ files, ¬ Touchable env s.1.fs f) := by
  refine .bind (touchFiles_seen files) fun _ => .of_start fun w₁ ⟨events, hworked, htouched⟩ => ?_
  refine .bind ((gitCheckout_seen (s := w₁.seen) files).pre fun w he => he ▸ rfl) fun ok => .of_start ?_
  rintro w₂ ⟨events', hworked', hdone, hreliable⟩
  refine .ite (fun hok => .pure ?_) fun hfailed => ?_
  · rintro w rfl
    refine ⟨_, hworked.trans hworked', fun _ => rfl, fun f hf => ⟨(htouched f hf).2, fun _ => ⟨?_, ?_⟩⟩⟩
    · exact (htouched f hf).1.imp_left (List.mem_append_left _)
    · obtain ⟨paths, hran, hmem⟩ := hdone hok f hf
      exact ⟨paths, List.mem_append_right _ hran, hmem⟩
  · refine .bind (R := fun _ w => w.seen = w₂.seen) ?_ fun _ => .pure ?_
    · refine ((logLines_quiet failure).preserves (· = w₂.seen)).weaken (fun w he => congrArg _ he) (fun _ _ => id) ?_
      exact fun e w hw => ⟨_, hw ▸ hworked.trans hworked', fun h => absurd (hreliable h) hfailed⟩
    rintro w hw
    refine ⟨_, hw ▸ hworked.trans hworked', fun h => absurd (hreliable h) hfailed, fun f hf => ⟨(htouched f hf).2, ?_⟩⟩
    exact fun h => absurd h (by decide)

end

/-! ### The command -/

section
variable {gitDir : Location} {vars : LockOptions} {r r' : Repo} {keys keys' : List (Option Bytes)}
  {attributes : Attributes} {output : Bytes}

def keysLocation (gitDir : Location) : Location := str "keys" :: str "git-crypt" :: gitDir

/-- The keys `lock` removes with these options. -/
def selectedKeys (gitDir : Location) (vars : LockOptions) (r : Repo) : List (Option Bytes) :=
  if vars.allKeys then (r.fs.children (keysLocation gitDir)).map lockedKeyName else [vars.keyName]

/-- The paths that `lock` uses lead to where the keys are. -/
structure KeysAt (env : Env) (gitDir : Location) (vars : LockOptions) (r : Repo) : Prop where
  files : ∀ keyName ∈ selectedKeys gitDir vars r, KeyFileAt env gitDir keyName r.fs
  directory : vars.allKeys = true → r.fs.resolve env.cwd (internalKeysPath env) = .ok (keysLocation gitDir) ∧
    r.fs.find (keysLocation gitDir) = some .dir

/-- `lock` goes on to remove keys. -/
structure GoesOn (env : Env) (gitDir : Location) (vars : LockOptions) (r : Repo) : Prop where
  clean : vars.force = true ∨ env.status r.fs = []
  unlocked : vars.allKeys = false → r.fs.find (keyLocation gitDir vars.keyName) ≠ none

theorem KeysRemoved.congr (h : KeysRemoved gitDir keys r r') (hkeys : ∀ keyName, keyName ∈ keys ↔ keyName ∈ keys') :
    KeysRemoved gitDir keys' r r' where
  tree := h.tree.congr fun loc => by simp only [KeyLocations, hkeys]
  unset keyName hmem := h.unset keyName ((hkeys keyName).mpr hmem)
  others v hv := h.others v fun keyName hmem => hv keyName ((hkeys keyName).mp hmem)

theorem CutOff.congr {s' : Repo × List Event} (h : CutOff gitDir keys s s')
    (hkeys : ∀ keyName, keyName ∈ keys ↔ keyName ∈ keys') : CutOff gitDir keys' s s' :=
  ⟨h.1.mono fun _ ⟨keyName, hmem, he⟩ => ⟨keyName, (hkeys keyName).mp hmem, he⟩, h.2⟩

theorem mem_filesOfKeys {names : List Bytes} {f : Bytes} : f ∈ filesOfKeys attributes names keys ↔
    f ∈ names ∧ ∃ keyName ∈ keys, attributes.filter f = attributeName keyName := by
  simp only [filesOfKeys, encryptedNames, List.mem_flatMap, List.mem_filter, decide_eq_true_eq]
  constructor
  · rintro ⟨keyName, hmem, hname, hfilter⟩
    exact ⟨hname, keyName, hmem, hfilter⟩
  · rintro ⟨hname, keyName, hmem, hfilter⟩
    exact ⟨keyName, hmem, hname, hfilter⟩

theorem peek_outputStream (output : Bytes) : (outputStream output).peek.1.isSome = true ↔ output ≠ [] := by
  cases output with
  | nil => exact iff_of_false (by decide) fun h => h rfl
  | cons c output => exact iff_of_true rfl (List.cons_ne_nil _ _)

/-- What `lockSelected` has done where it gives files to check out. -/
structure KeysLocked (env : Env) (attributes : Attributes) (names : List Bytes) (gitDir : Location) (vars : LockOptions)
    (s : Repo × List Event) (files : List Bytes) (s' : Repo × List Event) : Prop where
  removed : KeysRemoved gitDir (selectedKeys gitDir vars s.1) s.1 s'.1
  silent : s'.2 = s.2
  listed : ∀ f, f ∈ files ↔ f ∈ filesOfKeys attributes names (selectedKeys gitDir vars s.1)
  unlocked : Reliable env → vars.allKeys = false → s.1.fs.find (keyLocation gitDir vars.keyName) ≠ none

/-- A place that is led to can be told from one where nothing is, unless the system fails. -/
private theorem access_leads {path : Bytes} {loc : Location} (hr : s.1.fs.resolve env.cwd path = .ok loc)
    {E : Exception → World → Prop} :
    Triple (fun w => w.seen = s) (access env path)
      (fun res w => w.seen = s ∧ (res = .error .enoent → s.1.fs.find loc = none) ∧
        (Reliable env → s.1.fs.find loc = none → res = .error .enoent)) E := by
  refine access_query_seen.post fun res w ⟨hw, hres⟩ => ⟨hw, ?_⟩
  rcases hres with rfl | ⟨hfail, rfl⟩
  · cases hf : s.1.fs.find loc with
    | none =>
      have hstat : s.1.fs.stat env.cwd path = .error .enoent := by
        unfold FileSystem.stat
        rw [hr]
        dsimp only
        rw [hf]
      rw [hstat]
      exact ⟨fun _ => rfl, fun _ _ => rfl⟩
    | some node =>
      rw [FileSystem.stat_ok.mpr ⟨loc, hr, hf⟩]
      exact ⟨by simp [Except.map], by simp⟩
  · exact ⟨by simp, fun hreliable => absurd hreliable hfail⟩

theorem lockGivenKey_seen (h : Answers env attributes) (hlisting : ∀ fs, env.lsFiles fs = output)
    (hone : vars.allKeys = false) (hkey : KeyFileAt env gitDir vars.keyName s.1.fs) :
    Triple (fun w => w.seen = s) (lockGivenKey env vars.keyName)
      (fun res w => (res = none ∧ s.1.fs.find (keyLocation gitDir vars.keyName) = none ∧ w.seen = s) ∨
        ∃ files, res = some files ∧ KeysLocked env attributes (listedNames output) gitDir vars s files w.seen)
      fun _ w => CutOff gitDir [vars.keyName] s w.seen ∧ ¬ Reliable env := by
  have hselected : selectedKeys gitDir vars s.1 = [vars.keyName] := by simp [selectedKeys, hone]
  refine .bind ((getInternalKeyPath_learns _).triple.weakenError ?_) fun path => .assuming ?_
  · rintro e w ⟨rfl, hfail⟩
    exact ⟨⟨.refl _ _, rfl⟩, hfail⟩
  rintro rfl
  refine .bind (access_leads hkey.leads) fun res => ?_
  split
  · refine .bind (R := fun _ w => w.seen = s ∧ s.1.fs.find (keyLocation gitDir vars.keyName) = none) ?_ fun _ =>
      .pure fun w hw => .inl ⟨rfl, hw.2, hw.1⟩
    intro w hw
    exact ⟨(logLines_quiet _ w).trans hw.1, hw.2.1 rfl⟩
  · rename_i hpresent
    refine .of_start fun w₁ ⟨hw₁, _, hgone⟩ => ?_
    refine .bind ((lockKey_seen h hlisting hkey).pre fun w he => he ▸ hw₁) fun files => .pure ?_
    rintro w ⟨⟨hremoved, hsilent⟩, rfl⟩
    refine .inr ⟨_, rfl, hselected ▸ hremoved, hsilent, fun f => ?_, fun hreliable _ hnone => ?_⟩
    · rw [hselected, filesOfKeys, List.flatMap_singleton]
    · exact hpresent (hgone hreliable hnone)

theorem lockSelected_seen (h : Answers env attributes) (hlisting : ∀ fs, env.lsFiles fs = output)
    (hkeys : KeysAt env gitDir vars s.1) :
    Triple (fun w => w.seen = s) (lockSelected env vars)
      (fun res w => (res = none ∧ vars.allKeys = false ∧ s.1.fs.find (keyLocation gitDir vars.keyName) = none ∧
          w.seen = s) ∨
        ∃ files, res = some files ∧ KeysLocked env attributes (listedNames output) gitDir vars s files w.seen)
      fun _ w => CutOff gitDir (selectedKeys gitDir vars s.1) s w.seen ∧ ¬ Reliable env := by
  have hnothing {w : World} (hw : w.seen = s) (hfail : ¬ Reliable env) :
      CutOff gitDir (selectedKeys gitDir vars s.1) s w.seen ∧ ¬ Reliable env := by
    rw [hw]
    exact ⟨⟨.refl _ _, rfl⟩, hfail⟩
  refine .ite (fun hall => ?_) fun hone => ?_
  · refine .bind (getInternalKeysPath_learns.triple.weakenError ?_) fun path => .assuming ?_
    · exact fun e w hw => hnothing hw.1 hw.2
    rintro rfl
    obtain ⟨hleads, hdir⟩ := hkeys.directory hall
    refine .bind ((getDirectoryContents_learns (FileSystem.readdir_of_dir hleads hdir)).triple.weakenError ?_)
      fun dirents => .assuming ?_
    · exact fun e w hw => hnothing hw.1 hw.2
    rintro rfl
    -- the directory is sorted
    have hselected (keyName : Option Bytes) : keyName ∈ ((s.1.fs.children (keysLocation gitDir)).mergeSort
        fun a b => decide (a ≤ b)).map lockedKeyName ↔ keyName ∈ selectedKeys gitDir vars s.1 := by
      simp [selectedKeys, hall]
    refine .bind ((lockKeys_seen h hlisting fun keyName hmem =>
      hkeys.files keyName ((hselected keyName).mp hmem)).weakenError ?_) fun files => .pure ?_
    · exact fun e w hw => ⟨hw.1.congr hselected, hw.2⟩
    rintro w ⟨⟨hremoved, hsilent⟩, rfl⟩
    refine .inr ⟨_, rfl, hremoved.congr hselected, hsilent, fun f => ?_, fun _ hone => ?_⟩
    · simp only [mem_filesOfKeys, hselected]
    · rw [hall] at hone
      cases hone
  · have hone : vars.allKeys = false := by simpa using hone
    have hselected : selectedKeys gitDir vars s.1 = [vars.keyName] := by simp [selectedKeys, hone]
    refine (lockGivenKey_seen h hlisting hone (hkeys.files _ (by simp [hselected]))).weaken (fun _ => id) ?_ ?_
    · exact fun res w hw => hw.imp_left fun hnone => ⟨hnone.1, hone, hnone.2⟩
    · rw [hselected]
      exact fun _ _ => id

/-- What is seen of `lock` once it removes keys: they are gone, and some files have been worked on. -/
structure Removed (env : Env) (attributes : Attributes) (names : List Bytes) (gitDir : Location) (vars : LockOptions)
    (r : Repo) (events : List Event) (s : Repo × List Event) : Prop where
  keys : KeysRemoved gitDir (selectedKeys gitDir vars r) r s.1
  worked : WorkedOn (filesOfKeys attributes names (selectedKeys gitDir vars r)) (s.1, []) events s
  goesOn : Reliable env → GoesOn env gitDir vars r

theorem lock_seen (h : Answers env attributes) (hlisting : ∀ fs, env.lsFiles fs = output)
    (hkeys : KeysAt env gitDir vars r) {args : List Bytes} (hparse : parseOptions lockOptions {} args = .ok (vars, []))
    (hexclusive : vars.allKeys = true → vars.keyName = none) :
    Triple (fun w => w.seen = (r, [])) (lock env args)
      (fun status w => (¬ GoesOn env gitDir vars r ∧ status = 1 ∧ w.seen = (r, [])) ∨
        ∃ events, Removed env attributes (listedNames output) gitDir vars r events w.seen ∧
          (Reliable env → status = 0) ∧ ∀ f ∈ filesOfKeys attributes (listedNames output) (selectedKeys gitDir vars r),
            Touchable env w.fs f ∧ (status = 0 → Restored env w.fs events f))
      fun _ w => (CutOff gitDir (selectedKeys gitDir vars r) (r, []) w.seen ∧ ¬ Reliable env) ∨
        ∃ events, Removed env attributes (listedNames output) gitDir vars r events w.seen ∧ (Reliable env →
          ∃ f ∈ filesOfKeys attributes (listedNames output) (selectedKeys gitDir vars r), ¬ Touchable env w.fs f) := by
  have hstops (lines : List Bytes) (hnot : ¬ GoesOn env gitDir vars r) {E : Exception → World → Prop} :
      Triple (fun w => w.seen = (r, [])) (leave 1 lines) (fun status w =>
        ¬ GoesOn env gitDir vars r ∧ status = 1 ∧ w.seen = (r, [])) E := by
    refine .bind (R := fun _ w => w.seen = (r, [])) ?_ fun _ => .pure fun w hw => ⟨hnot, rfl, hw⟩
    exact fun w hw => (logLines_quiet lines w).trans hw
  unfold lock
  rw [hparse]
  refine .ite (fun hrest => absurd rfl hrest) fun _ => .ite (fun hboth => ?_) fun _ => ?_
  · have hnone := hexclusive hboth.1
    rw [hnone] at hboth
    cases hboth.2
  refine .bind (getGitStatus_learns.triple.weakenError ?_) fun statusOutput => .assuming ?_
  · rintro e w ⟨hw, hfail⟩
    rw [hw]
    exact .inl ⟨⟨.refl _ _, rfl⟩, hfail⟩
  rintro rfl
  refine .ite (fun hdirty => ?_) fun hclean => ?_
  · refine (hstops _ fun hgoes => ?_).weaken (fun _ => id) (fun _ _ => .inl) fun _ _ => id
    rcases hgoes.clean with hforce | hempty
    · simp [hforce] at hdirty
    · exact (peek_outputStream _).mp hdirty.2 hempty
  have hclean : vars.force = true ∨ env.status r.fs = [] := by
    by_contra hnot
    rw [not_or] at hnot
    exact hclean ⟨by simpa using hnot.1, (peek_outputStream _).mpr hnot.2⟩
  refine .bind ((lockSelected_seen h hlisting hkeys).weakenError fun _ _ => .inl) fun res => ?_
  split
  · refine .pure ?_
    rintro w (⟨-, hone, hgone, hw⟩ | ⟨files, hsome, -⟩)
    · exact .inl ⟨fun hgoes => hgoes.unlocked hone hgone, rfl, hw⟩
    · cases hsome
  · rename_i files
    refine .of_start fun w₁ hlocked => ?_
    have hlocked : KeysLocked env attributes (listedNames output) gitDir vars (r, []) files w₁.seen := by
      rcases hlocked with ⟨hnone, -⟩ | ⟨files', hsome, hlocked⟩
      · cases hnone
      · cases hsome
        exact hlocked
    have hseen : w₁.seen = (w₁.seen.1, []) := Prod.ext rfl hlocked.silent
    have hend {w : World} {events : List Event} (hworked : WorkedOn files w₁.seen events w.seen) :
        w.fs = w₁.fs ∧ Removed env attributes (listedNames output) gitDir vars r events w.seen := by
      have hrepo : w.seen.1 = w₁.seen.1 := by rw [hworked.seen]
      refine ⟨congrArg Repo.fs hrepo, hrepo ▸ hlocked.removed, ?_, fun hreliable => ⟨hclean, hlocked.unlocked hreliable⟩⟩
      rw [hrepo, ← hseen]
      exact hworked.mono fun f hf => (hlocked.listed f).mp hf
    refine (checkOutFiles_seen (s := w₁.seen) files _).weaken (fun w he => congrArg World.seen he) ?_ ?_
    · rintro status w ⟨events, hworked, hstatus, hdone⟩
      obtain ⟨hfs, hremoved⟩ := hend hworked
      refine .inr ⟨events, hremoved, hstatus, fun f hf => ?_⟩
      rw [hfs]
      exact hdone f ((hlocked.listed f).mpr hf)
    · rintro e w ⟨events, hworked, hstop⟩
      obtain ⟨hfs, hremoved⟩ := hend hworked
      refine .inr ⟨events, hremoved, fun hreliable => ?_⟩
      obtain ⟨f, hf, hnot⟩ := hstop hreliable
      exact ⟨f, (hlocked.listed f).mp hf, by rwa [hfs]⟩

end

end GitCrypt
