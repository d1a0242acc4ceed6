import GitCrypt.KeyTransfer
import GitCrypt.Library.Network

/-! A team: clones of one repository in which processes of the program run, in any order, with
whatever failures, and which share keys by the key files they hand on. -/
namespace GitCrypt
open Iostream Posix FileSystem Network
variable {ι : Type} {P : Primitives} {gitDir : ι → Location}

/-- What has come about in a team: the keys that were made, by the names they were made for, and the
key files that were handed on. -/
structure Known where
  made : MadeKeys
  given : Set Bytes

instance : Preorder Known where
  le known known' := (∀ keyName, known.made keyName ⊆ known'.made keyName) ∧ known.given ⊆ known'.given
  le_refl _ := ⟨fun _ => subset_rfl, subset_rfl⟩
  le_trans _ _ _ h h' := ⟨fun keyName => (h.1 keyName).trans (h'.1 keyName), h.2.trans h'.2⟩

/-- The keys in a key file. -/
def keysOf (bytes : Bytes) : MadeKeys := fun keyName =>
  {key | ∃ keyFile version, KeyFile.loadBytes bytes = .ok keyFile ∧ keyFile.getKeyName = keyName ∧
    keyFile.get version = some key}

/-- What may happen in a clone. -/
inductive Acts (P : Primitives) (gitDir : ι → Location) (i : ι) :
    Known × (Repo × GitState) → Known × (Repo × GitState) → Prop
  /-- A process runs, somewhere below the clone, and the key files it takes in have been handed on. -/
  | runs {known : Known} {s : Repo × GitState} (p : Process) (hlocated : Located p.invoked.env (gitDir i) s.1)
    (htakes : ∀ bytes ∈ p.takesIn s.1, ∀ keyFile, KeyFile.loadBytes bytes = .ok keyFile → bytes ∈ known.given)
    (hplaced : p.WritesElsewhere (gitDir i) s.1) :
    Acts P gitDir i (known, s)
      (⟨known.made ⊔ p.draws (p.run P s).2.1, known.given ∪ p.handsOn (p.run P s).1 (p.run P s).2.1⟩,
        (p.run P s).2.1.toRepo, (p.run P s).2.2)
  /-- Anything else happens that puts no file into the place of a key. -/
  | changes {known : Known} {s s' : Repo × GitState}
    (h : ∀ keyName, LegalKeyName keyName → ∀ bytes,
      s'.1.fs.find (keyLocation (gitDir i) keyName) = some (.file bytes) →
        s.1.fs.find (keyLocation (gitDir i) keyName) = some (.file bytes)) : Acts P gitDir i (known, s) (known, s')
  /-- A key file comes from outside. -/
  | adopts {known : Known} {s : Repo × GitState} (bytes : Bytes) :
    Acts P gitDir i (known, s) (⟨known.made ⊔ keysOf bytes, insert bytes known.given⟩, s)

abbrev Team (ι : Type) := State ι Known (Repo × GitState)

/-- The members of the team act for a while. -/
abbrev TeamRun [DecidableEq ι] (P : Primitives) (gitDir : ι → Location) : Team ι → Team ι → Prop := Run (Acts P gitDir)

/-- Every key that was handed on for a legal name, or lies in a clone under one, was made for its
name. -/
def KeysSound (gitDir : ι → Location) : Team ι → Prop :=
  Network.Holds (fun known => ∀ bytes ∈ known.given, Genuine known.made bytes)
    fun i known s => KeysFrom known.made (gitDir i) s.1.fs

private theorem genuine_of_takes {known : Known} {bytes : Bytes}
    (hgiven : ∀ bytes ∈ known.given, Genuine known.made bytes)
    (h : ∀ keyFile, KeyFile.loadBytes bytes = .ok keyFile → bytes ∈ known.given) : Genuine known.made bytes :=
  fun keyFile hload => hgiven bytes (h keyFile hload) keyFile hload

/-- What one act does to the team. -/
theorem Acts.sound {i : ι} {s s' : Known × (Repo × GitState)} (h : Acts P gitDir i s s')
    (hgiven : ∀ bytes ∈ s.1.given, Genuine s.1.made bytes) (hkeys : KeysFrom s.1.made (gitDir i) s.2.1.fs) :
    s.1 ≤ s'.1 ∧ (∀ bytes ∈ s'.1.given, Genuine s'.1.made bytes) ∧ KeysFrom s'.1.made (gitDir i) s'.2.1.fs := by
  cases h with
  | @runs known s p hlocated htakes hplaced =>
    have hkept : KeysKept p.invoked.env (gitDir i) known.made s.1 := ⟨hlocated, hkeys⟩
    have hafter := Process.keepsKeys hkept P (fun bytes hbytes => genuine_of_takes hgiven (htakes bytes hbytes)) hplaced
    refine ⟨⟨fun _ => Set.subset_union_left, Set.subset_union_left⟩, fun bytes hbytes => ?_, hafter.keys⟩
    rcases hbytes with hbytes | hbytes
    · exact (hgiven bytes hbytes).mono le_sup_left
    · exact (Process.handsOn_genuine hkept P bytes hbytes).mono le_sup_left
  | changes hfiles =>
    exact ⟨le_rfl, hgiven, fun keyName hn bytes hfile => hkeys keyName hn bytes (hfiles keyName hn bytes hfile)⟩
  | adopts bytes =>
    refine ⟨⟨fun _ => Set.subset_union_left, Set.subset_insert _ _⟩, fun bytes' hbytes => ?_, hkeys.mono le_sup_left⟩
    rcases hbytes with rfl | hbytes
    · exact fun keyFile hload version key hget => .inr ⟨keyFile, version, hload, rfl, hget⟩
    · exact (hgiven bytes' hbytes).mono le_sup_left

/-- No clone has a key, none was made, and nothing was handed on. -/
structure NewTeam (gitDir : ι → Location) (t : Team ι) : Prop where
  known : t.known = ⟨⊥, ∅⟩
  keyless : ∀ i keyName, LegalKeyName keyName → ∀ bytes,
    (t.states i).1.fs.find (keyLocation (gitDir i) keyName) ≠ some (.file bytes)

theorem NewTeam.sound {t : Team ι} (h : NewTeam gitDir t) : KeysSound gitDir t := by
  refine ⟨fun bytes hbytes => ?_, fun i keyName hn bytes hfile => absurd hfile (h.keyless i keyName hn bytes)⟩
  rw [h.known] at hbytes
  exact hbytes.elim

section
variable [DecidableEq ι] {t t' t'' : Team ι}

theorem KeysSound.run (h : KeysSound gitDir t) (hrun : TeamRun P gitDir t t') :
    t.known ≤ t'.known ∧ KeysSound gitDir t' :=
  hrun.holds (fun _ _ _ _ hle hkeys => hkeys.mono hle.1) (fun _ _ _ hact hgiven hkeys => hact.sound hgiven hkeys) h

/-- Whatever the members of a team do, in whatever order and with whatever failures: every key that
lies in a clone under a legal name, and every key that was handed on for one, was made for that
name. -/
theorem keysSound_of_newTeam (hnew : NewTeam gitDir t) (hrun : TeamRun P gitDir t t') : KeysSound gitDir t' :=
  (hnew.sound.run hrun).2

/-- Where one key only was made for a name, a blob that one member has made with `clean` is decrypted
by any member at any later time, with `smudge` or `diff`, to what it was made of, or nothing is
written and the exit status is not 0. -/
theorem decrypts_of_newTeam (hnew : NewTeam gitDir t) (hrun : TeamRun P gitDir t t') (hlater : TeamRun P gitDir t' t'')
    {keyName : Option Bytes} (hn : LegalKeyName keyName) (hone : (t''.known.made keyName).Subsingleton) {i j : ι}
    {p q : Process} (hp : Located p.invoked.env (gitDir i) (t'.states i).1)
    (hq : Located q.invoked.env (gitDir j) (t''.states j).1) (hclean : p.Filters (str "clean") keyName [])
    (hzero : (p.run P (t'.states i)).1 = .ok 0)
    (hdecrypts : q.Decrypts (t''.states j).1 keyName (p.run P (t'.states i)).2.1.cout.written) :
    (q.run P (t''.states j)).1 = .ok 0 ∧ (q.run P (t''.states j)).2.1.cout.written = p.invoked.env.stdin ∨
      (q.run P (t''.states j)).1 ≠ .ok 0 ∧ (q.run P (t''.states j)).2.1.cout.written = [] := by
  obtain ⟨-, hsound⟩ := hnew.sound.run hrun
  obtain ⟨hle, hsound'⟩ := hsound.run hlater
  obtain ⟨key, hkey, hlt, hblob⟩ := Process.clean_encrypts hn ⟨hp, hsound.2 i⟩ hclean hzero
  rw [hblob] at hdecrypts
  exact Process.decrypts_allOrNothing hn ⟨hq, hsound'.2 j⟩ hone (hle.1 keyName hkey) hlt hdecrypts

/-- The team after a process of one member. -/
def Team.after (P : Primitives) (t : Team ι) (i : ι) (p : Process) : Team ι :=
  let ended := p.run P (t.states i)
  ⟨⟨t.known.made ⊔ p.draws ended.2.1, t.known.given ∪ p.handsOn ended.1 ended.2.1⟩,
    Function.update t.states i (p.after P (t.states i))⟩

theorem Team.after_states (t : Team ι) (i : ι) (p : Process) : (t.after P i p).states i = p.after P (t.states i) :=
  Function.update_self _ _ _

theorem TeamRun.runs {i : ι} {p : Process} (h : TeamRun P gitDir t t')
    (hlocated : Located p.invoked.env (gitDir i) (t'.states i).1)
    (htakes : ∀ bytes ∈ p.takesIn (t'.states i).1, ∀ keyFile, KeyFile.loadBytes bytes = .ok keyFile →
      bytes ∈ t'.known.given)
    (hplaced : p.WritesElsewhere (gitDir i) (t'.states i).1) : TeamRun P gitDir t (t'.after P i p) :=
  h.tail (.acts (.runs p hlocated htakes hplaced))

end

/-! ### Two clones -/

/-- Two clones of a repository in which nothing has been done yet. -/
def twoClones : Team Bool := ⟨⟨⊥, ∅⟩, fun _ => (freshRepo, emptyGit)⟩

/-- The first clone makes a key. -/
def keyMade : Team Bool := twoClones.after plainPrimitives false (processWith [] [str "init"])

/-- It exports it. -/
def keyExported : Team Bool := keyMade.after plainPrimitives false exporting

/-- The second clone is unlocked with it. -/
def keyShared : Team Bool := keyExported.after plainPrimitives true unlocking

theorem keyMade_states : keyMade.states false = initialisedClone := Team.after_states _ _ _

theorem newTeam_twoClones : NewTeam (fun _ => [str ".git"]) twoClones := by
  refine ⟨rfl, fun i keyName hn bytes hfile => ?_⟩
  have hkeys : freshRepo.fs.find [str "keys", str "git-crypt", str ".git"] = some .dir := find_parent hfile
  exact absurd hkeys (by decide +kernel)

/-- A process that takes in no key file and writes no file. -/
theorem TeamRun.looks [DecidableEq ι] {t t' : Team ι} {i : ι} {p : Process} (h : TeamRun P gitDir t t')
    (hlocated : Located p.invoked.env (gitDir i) (t'.states i).1)
    (htakes : ((commandLine p.args).bind fun line => unlockArgs line.1 line.2) = none)
    (hplaced : (footprint p.args).bind id = none) : TeamRun P gitDir t (t'.after P i p) := by
  refine h.runs hlocated ?_ ?_
  · rintro bytes ⟨args, hargs, -⟩
    rw [htakes] at hargs
    cases hargs
  · rintro path hpath keyName hn ⟨name, hname, -⟩
    rw [hpath] at hplaced
    obtain rfl : path = none := hplaced
    cases hname

theorem teamRun_keyMade : TeamRun plainPrimitives (fun _ => [str ".git"]) twoClones keyMade :=
  TeamRun.looks .refl (by unfold Located; decide +kernel) (by decide +kernel) (by decide +kernel)

private theorem exportedKey_mem : exportedKey ∈ keyExported.known.given := by
  refine .inr ?_
  rw [keyMade_states]
  exact exportedKey_handsOn

theorem teamRun_keyShared : TeamRun plainPrimitives (fun _ => [str ".git"]) keyMade keyShared := by
  have hexported : TeamRun plainPrimitives (fun _ => [str ".git"]) keyMade keyExported :=
    TeamRun.looks .refl (by unfold Located; decide +kernel) (by decide +kernel) (by decide +kernel)
  refine hexported.runs (by unfold Located; decide +kernel) ?_ ?_
  · rintro bytes ⟨args, hargs, hsupplied⟩ keyFile -
    have hline : ((commandLine unlocking.args).bind fun line => unlockArgs line.1 line.2) = some [str "-"] := by
      decide +kernel
    rw [hline] at hargs
    cases hargs
    cases hsupplied with
    | stdin => exact exportedKey_mem
    | file harg hdash => exact absurd (List.mem_singleton.mp harg) hdash
    | gpg hargs => cases hargs
  · intro path hpath
    have hfootprint : footprint unlocking.args = none := by decide +kernel
    rw [hfootprint] at hpath
    cases hpath

private theorem drawn_of_draws {p : Process} {w : World} {name : Option Bytes} {key : Entry}
    (h : key ∈ p.draws w name) :
    drawnKey p.invoked.env = some key := by
  unfold Process.draws drawnIn initDrawn at h
  cases hc : commandLine p.args with
  | none =>
    rw [hc] at h
    exact h.elim
  | some line =>
    rw [hc] at h
    dsimp only [Option.elim] at h
    split_ifs at h with hinit
    · cases hname : initKeyName line.2 with
      | none =>
        rw [hname] at h
        exact h.elim
      | some keyName =>
        rw [hname] at h
        exact h.2.2
    · exact h.elim

private theorem subsingleton_keyShared : (keyShared.known.made none).Subsingleton := by
  have hdrawn {key : Entry} (h : key ∈ keyShared.known.made none) : drawnKey freshEnv = some key := by
    rcases h with ((h | h) | h) | h
    · exact h.elim
    all_goals exact drawn_of_draws h
  exact fun key hkey key' hkey' => Option.some.inj ((hdrawn hkey).symm.trans (hdrawn hkey'))

theorem keysSound_twoClones : KeysSound (fun _ => [str ".git"]) keyShared :=
  keysSound_of_newTeam newTeam_twoClones (teamRun_keyMade.trans teamRun_keyShared)

theorem decrypts_twoClones :
    (smudging.run plainPrimitives (keyShared.states true)).1 = .ok 0 ∧
      (smudging.run plainPrimitives (keyShared.states true)).2.1.cout.written = str "hello" := by
  have hstatus : (smudging.run plainPrimitives (keyShared.states true)).1 = .ok 0 := by decide +kernel
  have hcleaning : Located cleaning.invoked.env [str ".git"] (keyMade.states false).1 := by
    unfold Located
    decide +kernel
  have hsmudging : Located smudging.invoked.env [str ".git"] (keyShared.states true).1 := by
    unfold Located
    decide +kernel
  have hzero : (cleaning.run plainPrimitives (keyMade.states false)).1 = .ok 0 := by decide +kernel
  have hdecrypts : smudging.Decrypts (keyShared.states true).1 none
      (cleaning.run plainPrimitives (keyMade.states false)).2.1.cout.written := by
    rw [keyMade_states]
    exact .smudge smudging_filters (processWith_stdin cleaned _)
  have hcase := decrypts_of_newTeam newTeam_twoClones teamRun_keyMade teamRun_keyShared (fun _ h => by cases h)
    subsingleton_keyShared hcleaning hsmudging cleaning_filters hzero hdecrypts
  exact ⟨hstatus, (hcase.resolve_right fun h => h.1 hstatus).2⟩

end GitCrypt
