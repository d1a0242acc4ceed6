import GitCrypt.RepoKeyFiles
import GitCrypt.Sharing

/-! `add_gpg_user` as a plan carried out: what a run without failures comes to, what is left by one
that fails, and when running it again makes up for the failure. -/
namespace GitCrypt
open Iostream Posix
variable {env : Env}

/-! ### The commit -/

/-- Nothing has been committed. -/
def Uncommitted (events : List Event) : Prop := ∀ message files, .ran (.gitCommit message files) 0 ∉ events

/-- What git is asked to do with the new files, where the message can be written. -/
def committing (env : Env) (collabKeys : List (Bytes × Bool)) (newFiles : List Bytes) : Option (List Event) :=
  if newFiles = [] then some []
  else (messageText env collabKeys).map fun message =>
    [.ran (.gitAdd newFiles) 0, .ran (.gitCommit message newFiles) 0]

section
variable {s : Repo × List Event} {collabKeys : List (Bytes × Bool)} {newFiles : List Bytes}

theorem Uncommitted.add {events : List Event} (h : Uncommitted events) (files : List Bytes) (status : Nat) :
    Uncommitted (events ++ [.ran (.gitAdd files) status]) := by
  intro message files' hmem
  rcases List.mem_append.mp hmem with hmem | hmem
  · exact h message files' hmem
  · simp at hmem

theorem Uncommitted.fail {events : List Event} (h : Uncommitted events) {message : Bytes} {files : List Bytes}
    {status : Nat} (hs : status ≠ 0) : Uncommitted (events ++ [.ran (.gitCommit message files) status]) := by
  intro message' files' hmem
  rcases List.mem_append.mp hmem with hmem | hmem
  · exact h message' files' hmem
  · simp only [List.mem_singleton, Event.ran.injEq] at hmem
    exact hs hmem.2.symm

theorem gpgGetUid_quiet (fingerprint : Bytes) : Quiet (gpgGetUid env fingerprint) := by
  refine .bind gpgGetExecutable_quiet fun program => .bind (execCommand_quiet rfl fun _ => rfl) fun out => ?_
  refine .ite (.pure _) ?_
  split
  · exact .pure _
  · exact .throw _

theorem commitMessage_quiet (collabKeys : List (Bytes × Bool)) : Quiet (commitMessage env collabKeys) := by
  refine .bind ?_ fun _ => .pure _
  induction collabKeys with
  | nil => exact .pure _
  | cons collab collabKeys ih => exact .bind (gpgGetUid_quiet _) fun _ => .bind ih fun _ => .pure _

/-- Without a success nothing is committed. -/
private theorem commitNewFiles_stops (hs : Uncommitted s.2) (noCommit : Bool) :
    Triple (fun w => w.seen = s) (commitNewFiles env noCommit collabKeys newFiles)
      (fun status w => w.toRepo = s.1 ∧ (status ≠ 0 → Uncommitted w.seen.2))
      fun _ w => w.toRepo = s.1 ∧ Uncommitted w.seen.2 := by
  refine .ite (fun _ => .pure fun w hw => ⟨congrArg Prod.fst hw, fun h => absurd rfl h⟩) fun _ => ?_
  refine .bind (execCommand_shown (0, []) rfl (fun _ => rfl) fun _ => rfl) fun out => ?_
  let s₁ : Repo × List Event := (s.1, s.2 ++ [.ran (.gitAdd newFiles) out.1])
  have hs₁ : Uncommitted s₁.2 := hs.add _ _
  refine Triple.pre (P := fun w : World => w.seen = s₁) ?_ fun w hw => hw.1
  refine .ite (fun _ => leave_triple fun w hw => ?_) fun _ => .ite (fun _ => .pure fun w hw => ?_) fun _ => ?_
  · exact ⟨congrArg Prod.fst hw, fun _ => show Uncommitted (World.seen w).2 from hw ▸ hs₁⟩
  · exact ⟨congrArg Prod.fst hw, fun h => absurd rfl h⟩
  refine .bind (((commitMessage_quiet collabKeys).triple (· = s₁)).weakenError ?_)
    fun message => .bind (execCommand_shown (0, []) rfl (fun _ => rfl) fun _ => rfl) fun out => ?_
  · exact fun e w hw => ⟨congrArg Prod.fst hw, show Uncommitted (World.seen w).2 from hw ▸ hs₁⟩
  refine .ite (fun hstatus => leave_triple fun w hw => ?_) fun _ => .pure fun w hw => ?_
  · refine ⟨congrArg Prod.fst hw.1, fun _ => show Uncommitted (World.seen w).2 from hw.1 ▸ hs₁.fail ?_⟩
    simpa [successfulExit] using hstatus
  · exact ⟨congrArg Prod.fst hw.1, fun h => absurd rfl h⟩

theorem commitNewFiles_reliable (h : Reliable env) :
    Triple (fun w => w.seen = s) (commitNewFiles env false collabKeys newFiles)
      (fun status w => status = 0 ∧ ∃ events, committing env collabKeys newFiles = some events ∧
        w.seen = (s.1, s.2 ++ events))
      fun _ _ => committing env collabKeys newFiles = none := by
  refine .ite (fun hnil => .pure fun w hw => ⟨rfl, [], if_pos hnil, by rw [hw, List.append_nil]⟩) fun hne => ?_
  have hcommitting : committing env collabKeys newFiles = (messageText env collabKeys).map fun message =>
      [.ran (.gitAdd newFiles) 0, .ran (.gitCommit message newFiles) 0] := if_neg hne
  refine .bind (execCommand_shown (0, []) rfl (fun _ => rfl) fun _ => rfl) fun out => ?_
  refine (Triple.assuming fun (hout : out = (0, [])) => ?_).pre fun w hw => ⟨hw.1, hw.2 h⟩
  subst hout
  refine Triple.bind ((commitMessage_learns h collabKeys).weakenError ?_)
    fun message => Triple.assuming fun hmessage => ?_
  · exact fun e w ⟨_, hmessage⟩ => by rw [hcommitting, hmessage h, Option.map_none]
  refine .bind (execCommand_shown (0, []) rfl (fun _ => rfl) fun _ => rfl) fun out w ⟨hw, hout⟩ => ?_
  obtain rfl := hout h
  refine ⟨rfl, [.ran (.gitAdd newFiles) 0, .ran (.gitCommit message newFiles) 0], ?_, hw.trans ?_⟩
  · rw [hcommitting, hmessage, Option.map_some]
  · rw [List.append_assoc]
    rfl

end

/-! ### The whole run -/

/-- What is shared, with whom and where. -/
structure Plan where
  collabKeys : List (Bytes × Bool)
  key : Entry
  statePath : Bytes

namespace Plan

def files (plan : Plan) (env : Env) (keyName : Option Bytes) : Resume.Maker FileSystem (Bytes × Bool) :=
  repoKeyFiles env keyName plan.key.version (repoKeyData keyName plan.key) (plan.statePath ++ str "/keys")

def filePath (plan : Plan) (keyName : Option Bytes) (collab : Bytes × Bool) : Bytes :=
  repoKeyPath (plan.statePath ++ str "/keys") keyName plan.key.version collab.1

def attributesPath (plan : Plan) : Bytes := plan.statePath ++ str "/.gitattributes"

/-- The tree with all files of the plan, and those that were missing. -/
def carriedOut (plan : Plan) (env : Env) (keyName : Option Bytes) (fs : FileSystem) :
    Option (FileSystem × List Bytes) :=
  ((plan.files env keyName).run plan.collabKeys fs).bind fun (new, fs₁) =>
    (attributesWritten env plan.attributesPath fs₁).map fun (newAttributes, fs₂) =>
      (fs₂, new.map (plan.filePath keyName) ++ newAttributes)

theorem carriedOut_of_run {plan : Plan} {keyName : Option Bytes} {fs fs₁ : FileSystem} {new : List (Bytes × Bool)}
    (h : (plan.files env keyName).run plan.collabKeys fs = some (new, fs₁)) :
    plan.carriedOut env keyName fs = (attributesWritten env plan.attributesPath fs₁).map fun written =>
      (written.2, new.map (plan.filePath keyName) ++ written.1) := by
  rw [carriedOut, h]
  rfl

/-- The same with what git is asked to do. -/
def concluded (plan : Plan) (env : Env) (keyName : Option Bytes) (fs : FileSystem) :
    Option (FileSystem × List Event) :=
  (plan.carriedOut env keyName fs).bind fun (fs', newFiles) =>
    (committing env plan.collabKeys newFiles).map fun events => (fs', events)

/-- The trees the plan may be left with: the loop may be interrupted, and the attributes may be
written or not. -/
inductive Left (plan : Plan) (env : Env) (keyName : Option Bytes) (fs : FileSystem) : FileSystem → Prop
  | sharing {made : List (Bytes × Bool)} {mid : FileSystem} :
      (plan.files env keyName).Interrupted plan.collabKeys fs made mid → Left plan env keyName fs mid
  | shared {new : List (Bytes × Bool)} {fs₁ mid : FileSystem} :
      (plan.files env keyName).run plan.collabKeys fs = some (new, fs₁) →
      mid = fs₁ ∨ Rewritten env plan.attributesPath fs₁ mid → Left plan env keyName fs mid

end Plan

/-- The plan of `add_gpg_user`. -/
def planned (env : Env) (vars : AddGpgUserOptions) (args : List Bytes) (repo : Repo) : Option Plan :=
  if args = [] then none
  else (lookedUp env vars.trusted args).bind fun collabKeys =>
    (installedKeyFile env vars.keyName repo.fs).bind fun keyFile =>
      keyFile.getLatest.bind fun key =>
        (repoStatePath env repo.config).map fun statePath => { collabKeys, key, statePath }

/-- What `add_gpg_user` comes to when nothing fails: the tree, and what git is asked to do. -/
def sharing (env : Env) (vars : AddGpgUserOptions) (args : List Bytes) (repo : Repo) :
    Option (FileSystem × List Event) :=
  (planned env vars args repo).bind fun plan => plan.concluded env vars.keyName repo.fs

/-- The program succeeds exactly when there is something it comes to, and comes to that. -/
def Completes (s : Repo × List Event) (m : Action Nat) (value : Option (FileSystem × List Event)) : Prop :=
  Triple (fun w => w.seen = s) m
    (fun status w => (status = 0 → ∃ fs events, value = some (fs, events) ∧
      w.seen = ({ s.1 with fs }, s.2 ++ events)) ∧ (status ≠ 0 → value = none))
    fun _ _ => value = none

section
variable {s : Repo × List Event} {vars : AddGpgUserOptions}

theorem Completes.after {α : Type} {m : Action α} {f : α → Action Nat} {value : Option α}
    {next : α → Option (FileSystem × List Event)} (h : Reliable env) (hm : Learns env s m value)
    (hf : ∀ a, Completes s (f a) (next a)) : Completes s (m >>= f) (value.bind next) := by
  refine Triple.bind (hm.weakenError ?_) fun a => Triple.assuming fun ha => ?_
  · exact fun e w ⟨_, hnone⟩ => by rw [hnone h, Option.bind_none]
  · rw [ha]
    exact hf a

theorem Completes.stop (status : Nat) (hs : status ≠ 0) (lines : List Bytes) :
    Completes s (leave status lines) none :=
  leave_triple fun _ _ => ⟨fun h => absurd h hs, fun _ => rfl⟩

theorem encryptRepoKey_seen (plan : Plan) (keyName : Option Bytes) :
    Triple (fun w => w.seen = s)
      (encryptRepoKey env keyName plan.key plan.collabKeys (plan.statePath ++ str "/keys"))
      (fun newFiles w => ∃ new fs', (plan.files env keyName).run plan.collabKeys s.1.fs = some (new, fs') ∧
        newFiles = new.map (plan.filePath keyName) ∧ w.seen = withTree s fs')
      fun _ w => ∃ made mid, w.seen = withTree s mid ∧
        (plan.files env keyName).Interrupted plan.collabKeys s.1.fs made mid ∧
        (Reliable env → (plan.files env keyName).run plan.collabKeys s.1.fs = none) :=
  encryptRepoKeyTo_seen _ _ _ _ _

private theorem shareKey_completes (h : Reliable env) (hcommit : vars.noCommit = false) (key : Entry)
    (collabKeys : List (Bytes × Bool)) :
    Completes s (shareKey env vars key collabKeys) ((repoStatePath env s.1.config).bind fun statePath =>
      Plan.concluded { collabKeys, key, statePath } env vars.keyName s.1.fs) := by
  refine .after h getRepoStatePath_learns fun statePath => ?_
  generalize hplan : ({ collabKeys, key, statePath } : Plan) = plan
  obtain ⟨rfl, rfl, rfl⟩ : plan.collabKeys = collabKeys ∧ plan.key = key ∧ plan.statePath = statePath := by
    subst hplan
    exact ⟨rfl, rfl, rfl⟩
  refine Triple.bind ((encryptRepoKey_seen plan _).weakenError ?_) fun newFiles => ?_
  · rintro e w ⟨made, mid, -, -, hnone⟩
    rw [Plan.concluded, Plan.carriedOut, hnone h, Option.bind_none, Option.bind_none]
  rintro w ⟨new, fs₁, hrun, rfl, hw⟩
  refine Triple.bind (writeStateGitattributes_seen plan.attributesPath) (fun res => ?_) w hw
  rintro w ⟨fs₂, hw, -, hwritten⟩
  have hcarried : plan.carriedOut env vars.keyName s.1.fs =
      res.map fun newAttributes => (fs₂, new.map (plan.filePath vars.keyName) ++ newAttributes) := by
    rw [Plan.carriedOut_of_run hrun, show attributesWritten env plan.attributesPath fs₁ = res.map (·, fs₂) from
      hwritten h, Option.map_map]
    rfl
  cases res with
  | none =>
    refine ⟨fun h => absurd h one_ne_zero, fun _ => ?_⟩
    rw [Plan.concluded, hcarried, Option.map_none, Option.bind_none]
  | some newAttributes =>
    have hconcluded : plan.concluded env vars.keyName s.1.fs =
        (committing env plan.collabKeys (new.map (plan.filePath vars.keyName) ++ newAttributes)).map (fs₂, ·) := by
      rw [Plan.concluded, hcarried]
      rfl
    rw [hconcluded, hcommit]
    refine (commitNewFiles_reliable h).weaken (fun _ => id) ?_ ?_ w hw
    · rintro status w ⟨rfl, events, hevents, hw⟩
      exact ⟨fun _ => ⟨fs₂, events, congrArg (Option.map _) hevents, hw⟩, fun h => absurd rfl h⟩
    · exact fun e w hnone => congrArg (Option.map _) hnone

theorem addGpgUser_completes (h : Reliable env) {args rest : List Bytes}
    (hargs : parseOptions addGpgUserOptions {} args = .ok (vars, rest)) (hcommit : vars.noCommit = false) :
    Completes s (addGpgUser env args) (sharing env vars rest s.1) := by
  unfold addGpgUser
  rw [hargs]
  unfold sharing planned
  change Completes s (if rest = [] then _ else _) _
  by_cases hrest : rest = []
  · rw [if_pos hrest, if_pos hrest]
    exact .stop 2 (by simp) _
  rw [if_neg hrest, if_neg hrest, Option.bind_assoc]
  refine Triple.bind ((lookupCollaborators_finds _ _).weakenError ?_) fun res => ?_
  · exact fun e w ⟨_, hnone⟩ => by rw [hnone h, Option.bind_none]
  intro w ⟨hw, hres⟩
  rw [← hres.resolve_right fun hfail => hfail.1 h]
  cases res with
  | none => exact ⟨fun h => absurd h one_ne_zero, fun _ => rfl⟩
  | some collabKeys =>
    rw [Option.bind_some, Option.bind_assoc]
    refine Completes.after h (loadKey_learns _) (fun keyFile => ?_) w hw
    cases hkey : keyFile.getLatest with
    | none => exact .stop 1 (by simp) _
    | some key =>
      rw [Option.bind_some, Option.bind_map]
      exact shareKey_completes h hcommit key collabKeys

/-- However the program ends, the tree satisfies the assertion; without a success nothing has been
committed. -/
def Stops (s : Repo × List Event) (P : FileSystem → Prop) (m : Action Nat) : Prop :=
  Triple (fun w => w.seen = s) m
    (fun status w => (∃ mid, w.toRepo = { s.1 with fs := mid } ∧ P mid) ∧ (status ≠ 0 → Uncommitted w.seen.2))
    fun _ w => (∃ mid, w.toRepo = { s.1 with fs := mid } ∧ P mid) ∧ Uncommitted w.seen.2

section
variable {P : FileSystem → Prop}

private theorem stops_here {w : World} (hs : Uncommitted s.2) (hP : P s.1.fs) (hw : w.seen = s) :
    (∃ mid, w.toRepo = { s.1 with fs := mid } ∧ P mid) ∧ Uncommitted w.seen.2 := by
  subst hw
  exact ⟨⟨w.fs, rfl, hP⟩, hs⟩

theorem Stops.leave (hs : Uncommitted s.2) (hP : P s.1.fs) (status : Nat) (lines : List Bytes) :
    Stops s P (leave status lines) :=
  leave_triple fun _ hw => ⟨(stops_here hs hP hw).1, fun _ => (stops_here hs hP hw).2⟩

theorem Stops.after {α : Type} {m : Action α} {f : α → Action Nat} {value : Option α} (hs : Uncommitted s.2)
    (hP : P s.1.fs) (hm : Learns env s m value) (hf : ∀ a, value = some a → Stops s P (f a)) :
    Stops s P (m >>= f) :=
  Triple.bind (hm.weakenError fun _ _ hw => stops_here hs hP hw.1)
    fun a => Triple.assuming (hf a)

private theorem shareKey_stops (hs : Uncommitted s.2) {key : Entry} {collabKeys : List (Bytes × Bool)} (hP : P s.1.fs)
    (hleft : ∀ statePath, repoStatePath env s.1.config = some statePath → ∀ mid,
      Plan.Left { collabKeys, key, statePath } env vars.keyName s.1.fs mid → P mid) :
    Stops s P (shareKey env vars key collabKeys) := by
  refine .after hs hP getRepoStatePath_learns fun statePath hstate => ?_
  have hleftP := hleft statePath hstate
  generalize hplan : ({ collabKeys, key, statePath } : Plan) = plan at hleftP
  obtain ⟨rfl, rfl, rfl⟩ : plan.collabKeys = collabKeys ∧ plan.key = key ∧ plan.statePath = statePath := by
    subst hplan
    exact ⟨rfl, rfl, rfl⟩
  refine Triple.bind ((encryptRepoKey_seen plan _).weakenError ?_) fun newFiles => ?_
  · rintro e w ⟨made, mid, hw, hmid, -⟩
    exact stops_here (s := withTree s mid) hs (hleftP mid (.sharing hmid)) hw
  rintro w ⟨new, fs₁, hrun, rfl, hw⟩
  refine Triple.bind (writeStateGitattributes_seen plan.attributesPath) (fun res => ?_) w hw
  rintro w ⟨fs₂, hw, hfs₂, -⟩
  have hP₂ : P fs₂ := hleftP fs₂ (.shared hrun hfs₂)
  cases res with
  | none => exact ⟨(stops_here (s := withTree s fs₂) hs hP₂ hw).1, fun _ => (stops_here (s := withTree s fs₂) hs hP₂ hw).2⟩
  | some newAttributes =>
    refine (commitNewFiles_stops (s := withTree s fs₂) hs _).weaken (fun _ => id) ?_ ?_ w hw
    · exact fun status w ⟨hrepo, hevents⟩ => ⟨⟨fs₂, hrepo, hP₂⟩, hevents⟩
    · exact fun e w ⟨hrepo, hevents⟩ => ⟨⟨fs₂, hrepo, hP₂⟩, hevents⟩

/-- However `add_gpg_user` ends, the tree is one that its plan may be left with. -/
private theorem addGpgUser_stops (hs : Uncommitted s.2) {args rest : List Bytes}
    (hargs : parseOptions addGpgUserOptions {} args = .ok (vars, rest)) :
    Stops s (fun mid => mid = s.1.fs ∨ ∃ plan, planned env vars rest s.1 = some plan ∧
      plan.Left env vars.keyName s.1.fs mid) (addGpgUser env args) := by
  unfold addGpgUser
  rw [hargs]
  change Stops s _ (if rest = [] then _ else _)
  by_cases hrest : rest = []
  · rw [if_pos hrest]
    exact .leave hs (.inl rfl) _ _
  rw [if_neg hrest]
  refine Triple.bind ((lookupCollaborators_finds _ _).weakenError fun _ _ hw => stops_here hs (.inl rfl) hw.1) fun res => ?_
  intro w ⟨hw, hres⟩
  cases res with
  | none => exact ⟨(stops_here hs (.inl rfl) hw).1, fun _ => (stops_here (P := fun _ => True) hs trivial hw).2⟩
  | some collabKeys =>
    have hlooked : lookedUp env vars.trusted rest = some collabKeys := by
      rcases hres with hres | ⟨-, hres⟩
      · exact hres.symm
      · cases hres
    refine Stops.after hs (.inl rfl) (loadKey_learns _) (fun keyFile hkeyFile => ?_) w hw
    cases hkey : keyFile.getLatest with
    | none => exact .leave hs (.inl rfl) _ _
    | some key =>
      refine shareKey_stops hs (.inl rfl) fun statePath hstate mid hmid => .inr ⟨_, ?_, hmid⟩
      rw [planned, if_neg hrest, hlooked, Option.bind_some, hkeyFile, Option.bind_some, hkey, Option.bind_some, hstate]
      rfl

end

end

theorem Completes.run {m : Action Nat} {value : Option (FileSystem × List Event)} (h : Completes s m value) {w : World}
    (hw : w.seen = s) :
    ((m w).1 = .ok 0 ∧ ∃ fs events, value = some (fs, events) ∧
      (m w).2.seen = ({ s.1 with fs }, s.2 ++ events)) ∨ (m w).1 ≠ .ok 0 ∧ value = none := by
  have hm := h w hw
  rcases hr : m w with ⟨e | status, w'⟩ <;> rw [hr] at hm
  · exact .inr ⟨nofun, hm⟩
  · by_cases hs : status = 0
    · exact .inl ⟨congrArg _ hs, hm.1 hs⟩
    · exact .inr ⟨fun he => hs (Except.ok.inj he), hm.2 hs⟩

theorem Stops.run {m : Action Nat} {P : FileSystem → Prop} (h : Stops s P m) {w : World} (hw : w.seen = s)
    (hfail : (m w).1 ≠ .ok 0) :
    (∃ mid, (m w).2.toRepo = { s.1 with fs := mid } ∧ P mid) ∧ Uncommitted (m w).2.seen.2 := by
  have hm := h w hw
  rcases hr : m w with ⟨e | status, w'⟩ <;> rw [hr] at hm hfail
  · exact hm
  · exact ⟨hm.1, hm.2 fun hs => hfail (congrArg _ hs)⟩

/-! ### Running it again -/

/-- The file is added and committed. -/
def Committed (events : List Event) (path : Bytes) : Prop :=
  (∃ files, .ran (.gitAdd files) 0 ∈ events ∧ path ∈ files) ∧
    ∃ message files, .ran (.gitCommit message files) 0 ∈ events ∧ path ∈ files

section
variable {path : Bytes} {events : List Event} {collabKeys : List (Bytes × Bool)} {newFiles : List Bytes}

theorem committed_of_committing (h : committing env collabKeys newFiles = some events) :
    Committed events path ↔ path ∈ newFiles := by
  unfold committing at h
  split_ifs at h with hnil
  · cases h
    simp [Committed, hnil]
  · obtain ⟨message, -, rfl⟩ := Option.map_eq_some_iff.mp h
    simp [Committed]

/-- A smaller commit needs no other message. -/
private theorem committing_of_subset {files : List Bytes} (h : committing env collabKeys newFiles = some events)
    (hsub : files ⊆ newFiles) : ∃ events, committing env collabKeys files = some events := by
  unfold committing at h ⊢
  by_cases hfiles : files = []
  · exact ⟨[], if_pos hfiles⟩
  · rw [if_neg fun hnil : newFiles = [] => hfiles (List.subset_nil.mp (hnil ▸ hsub))] at h
    obtain ⟨message, hmessage, -⟩ := Option.map_eq_some_iff.mp h
    rw [if_neg hfiles, hmessage]
    exact ⟨_, rfl⟩

/-- What did not commit adds nothing to what is committed. -/
private theorem committed_append {first : List Event} (hfirst : Uncommitted first)
    (h : committing env collabKeys newFiles = some events) :
    Committed (first ++ events) path ↔ path ∈ newFiles := by
  rw [← committed_of_committing h]
  constructor
  · rintro ⟨-, message, files, hcommit, hpath⟩
    rw [committed_of_committing h]
    have hmem := (List.mem_append.mp hcommit).resolve_left (hfirst message files)
    unfold committing at h
    split_ifs at h with hnil
    · cases h
      cases hmem
    · obtain ⟨message', -, rfl⟩ := Option.map_eq_some_iff.mp h
      simp only [List.mem_cons, Event.ran.injEq, reduceCtorEq, Command.gitCommit.injEq, and_true,
        List.not_mem_nil, or_false, false_or] at hmem
      rwa [← hmem.2]
  · rintro ⟨⟨files, hadd, hpath⟩, message, files', hcommit, hpath'⟩
    exact ⟨⟨files, List.mem_append_right _ hadd, hpath⟩, message, files', List.mem_append_right _ hcommit, hpath'⟩

end

namespace Plan
variable {plan : Plan} {keyName : Option Bytes} {fs fs₀ fs₁ mid : FileSystem} {events : List Event}

theorem concluded_iff : plan.concluded env keyName fs = some (fs₀, events) ↔ ∃ new fs₁ newAttributes,
    (plan.files env keyName).run plan.collabKeys fs = some (new, fs₁) ∧
      attributesWritten env plan.attributesPath fs₁ = some (newAttributes, fs₀) ∧
      committing env plan.collabKeys (new.map (plan.filePath keyName) ++ newAttributes) = some events := by
  constructor
  · intro h
    obtain ⟨⟨fs', newFiles⟩, hcarried, h⟩ := Option.bind_eq_some_iff.mp h
    obtain ⟨⟨new, fs₁⟩, hrun, hattributes⟩ := Option.bind_eq_some_iff.mp hcarried
    obtain ⟨⟨newAttributes, fs₂⟩, hwritten, he⟩ := Option.map_eq_some_iff.mp hattributes
    obtain ⟨events', hcommit, he'⟩ := Option.map_eq_some_iff.mp h
    cases he
    cases he'
    exact ⟨new, fs₁, newAttributes, hrun, hwritten, hcommit⟩
  · rintro ⟨new, fs₁, newAttributes, hrun, hwritten, hcommit⟩
    rw [concluded, carriedOut_of_run hrun, hwritten]
    exact Option.map_eq_some_iff.mpr ⟨events, hcommit, rfl⟩

/-- The new files of the collaborators. -/
theorem fresh_of_run {collabs new : List (Bytes × Bool)} (h : (plan.files env keyName).run collabs fs = some (new, fs₁)) :
    ∀ collab ∈ new, ∃ loc bytes, fs₁.resolve env.cwd (plan.filePath keyName collab) = .ok loc ∧
      fs.find loc = none ∧ fs₁.find loc = some (.file bytes) := by
  induction collabs generalizing fs new with
  | nil =>
    cases h
    simp
  | cons collab collabs ih =>
    obtain ⟨made, fs₂, rest, he, hrest, rfl⟩ := Resume.Maker.run_cons.mp h
    have hle := Resume.Maker.le_of_ensure he
    have hle' := Resume.Maker.le_of_run hrest
    intro c hc
    rcases List.mem_append.mp hc with hc | hc
    · rcases Resume.Maker.ensure_cases he with ⟨-, rfl, -⟩ | ⟨-, rfl, hmake⟩
      · cases hc
      · obtain rfl := List.mem_singleton.mp hc
        obtain ⟨loc, bytes, hr, hn, hf⟩ := collabFileMade_fresh hmake
        exact ⟨loc, bytes, FileSystem.resolve_of_dirsIn (FileSystem.Extends.dirsIn hle') hr, hn, hle' _ _ hf⟩
    · obtain ⟨loc, bytes, hr, hn, hf⟩ := ih hrest c hc
      exact ⟨loc, bytes, hr, FileSystem.Extends.find_none hle hn, hf⟩

/-- Only what is missing is handed to git. -/
private theorem missing_of_new {new : List (Bytes × Bool)} {newAttributes : List Bytes}
    (hrun : (plan.files env keyName).run plan.collabKeys fs = some (new, fs₁))
    (hwritten : attributesWritten env plan.attributesPath fs₁ = some (newAttributes, fs₀)) :
    ∀ path ∈ new.map (plan.filePath keyName) ++ newAttributes, isThere env path fs = false := by
  intro path hpath
  rcases List.mem_append.mp hpath with hpath | hpath
  · obtain ⟨collab, hc, rfl⟩ := List.mem_map.mp hpath
    exact Resume.Maker.missing_of_run hrun collab hc
  · rcases attributesWritten_cases hwritten with ⟨-, rfl, -⟩ | ⟨hmissing, rfl, -⟩
    · cases hpath
    · rw [List.mem_singleton.mp hpath, ← Bool.not_eq_true]
      intro hthere
      rw [isThere_mono (Resume.Maker.le_of_run hrun) hthere] at hmissing
      cases hmissing

/-- What a second run comes to is what the first would have come to. -/
def Repeats (fs₀ : FileSystem) (events₀ : List Event) (again : Option (FileSystem × List Event)) : Prop :=
  ∃ fs events, again = some (fs, events) ∧ (∀ path, Committed events path ↔ Committed events₀ path) ∧
    ∀ loc, fs.find loc = fs₀.find loc

/-- An interrupted run has made nothing if it has left the files as they were. -/
private theorem made_nil_iff {collabs made new : List (Bytes × Bool)}
    (hmid : (plan.files env keyName).Interrupted collabs fs made mid)
    (hrun : (plan.files env keyName).run collabs fs = some (new, fs₁)) : made = [] ↔ SameFiles fs mid := by
  constructor
  · rintro rfl
    obtain ⟨collab, -, done, rest, -, hmade⟩ := hmid.begun
    exact sameFiles_of_madePrefixes hmade
  · intro hsame
    obtain ⟨hle, left, rfl, -⟩ := hmid.resumes hrun
    rw [List.eq_nil_iff_forall_not_mem]
    intro collab hc
    obtain ⟨node, hnode⟩ := isThere_iff.mp (hmid.has collab hc)
    obtain ⟨loc', hr', hf'⟩ := FileSystem.stat_ok.mp hnode
    obtain ⟨loc, bytes, hr, hn, hf⟩ := fresh_of_run hrun collab (List.mem_append_left _ hc)
    obtain rfl : loc' = loc :=
      Except.ok.inj ((FileSystem.resolve_of_dirsIn (FileSystem.Extends.dirsIn hle) hr').symm.trans hr)
    obtain rfl : node = .file bytes := Option.some.inj ((hle _ _ hf').symm.trans hf)
    rw [(hsame loc' bytes).mp hf'] at hn
    cases hn

/-- After an interrupted run the next one ends as it would have, but for what it hands to git. -/
private theorem repeats_interrupted {made : List (Bytes × Bool)} {events₀ : List Event}
    (hmid : (plan.files env keyName).Interrupted plan.collabKeys fs made mid)
    (h₀ : plan.concluded env keyName fs = some (fs₀, events₀)) :
    Repeats fs₀ events₀ (plan.concluded env keyName mid) ↔ SameFiles fs mid := by
  obtain ⟨new, fs₁, newAttributes, hrun, hwritten, hcommit⟩ := concluded_iff.mp h₀
  rw [← made_nil_iff hmid hrun]
  obtain ⟨hle, left, rfl, hleft⟩ := hmid.resumes hrun
  have hsub : left.map (plan.filePath keyName) ++ newAttributes ⊆
      (made ++ left).map (plan.filePath keyName) ++ newAttributes := by
    rw [List.map_append, List.append_assoc]
    exact List.subset_append_right _ _
  obtain ⟨events, hevents⟩ := committing_of_subset hcommit hsub
  have hagain : plan.concluded env keyName mid = some (fs₀, events) :=
    concluded_iff.mpr ⟨left, fs₁, newAttributes, hleft, hwritten, hevents⟩
  rw [hagain]
  constructor
  · rintro ⟨fs', events', he, hcommitted, -⟩
    cases he
    rw [List.eq_nil_iff_forall_not_mem]
    intro collab hc
    have hpath : plan.filePath keyName collab ∈ (made ++ left).map (plan.filePath keyName) ++ newAttributes :=
      List.mem_append_left _ (List.mem_map_of_mem (List.mem_append_left _ hc))
    rw [← committed_of_committing hcommit, ← hcommitted, committed_of_committing hevents] at hpath
    have hmissing := missing_of_new hleft hwritten _ hpath
    rw [show isThere env (plan.filePath keyName collab) mid = true from hmid.has collab hc] at hmissing
    cases hmissing
  · rintro rfl
    refine ⟨fs₀, events, rfl, fun path => ?_, fun _ => rfl⟩
    rw [committed_of_committing hevents, committed_of_committing hcommit, List.nil_append]

private theorem concluded_le (h : plan.concluded env keyName fs = some (fs₀, events)) : fs ≤ fs₀ := by
  obtain ⟨new, fs₁, newAttributes, hrun, hwritten, -⟩ := concluded_iff.mp h
  exact le_trans (Resume.Maker.le_of_run hrun) (attributesWritten_le hwritten)

/-- Where the loop has come to its end, the next one has nothing to do. -/
theorem concluded_of_has (h : ∀ collab ∈ plan.collabKeys, isThere env (plan.filePath keyName collab) mid = true) :
    plan.concluded env keyName mid = some (fs₀, events) ↔ ∃ newAttributes,
      attributesWritten env plan.attributesPath mid = some (newAttributes, fs₀) ∧
        committing env plan.collabKeys newAttributes = some events := by
  have hrun : (plan.files env keyName).run plan.collabKeys mid = some ([], mid) := Resume.Maker.run_of_has h
  rw [concluded_iff]
  constructor
  · rintro ⟨new, fs₁, newAttributes, hrun', hwritten, hcommit⟩
    cases hrun.symm.trans hrun'
    exact ⟨newAttributes, hwritten, hcommit⟩
  · rintro ⟨newAttributes, hwritten, hcommit⟩
    exact ⟨[], mid, newAttributes, hrun, hwritten, hcommit⟩

section
variable {new : List (Bytes × Bool)} {events₀ : List Event}

/-- Files as they were: nothing was missing, and nothing differs. -/
theorem find_eq_of_sameFiles (hrun : (plan.files env keyName).run plan.collabKeys fs = some (new, fs₁))
    (hmid : mid = fs₁ ∨ Rewritten env plan.attributesPath fs₁ mid) (hsame : SameFiles fs mid) :
    fs₁ = fs ∧ ∀ loc, mid.find loc = fs.find loc := by
  have hfile {loc : Location} {bytes : Bytes} (hf : fs₁.find loc = some (.file bytes)) :
      ∃ bytes', mid.find loc = some (.file bytes') := by
    rcases hmid with rfl | ⟨loc', bytes', -, -, hdiff⟩
    · exact ⟨bytes, hf⟩
    · rw [hdiff loc]
      split_ifs
      · exact ⟨bytes', rfl⟩
      · exact ⟨bytes, hf⟩
  obtain rfl : new = [] := by
    rw [List.eq_nil_iff_forall_not_mem]
    intro collab hc
    obtain ⟨loc, bytes, -, hn, hf⟩ := fresh_of_run hrun collab hc
    obtain ⟨bytes', hf'⟩ := hfile hf
    rw [(hsame loc bytes').mp hf'] at hn
    cases hn
  obtain rfl := Resume.Maker.eq_of_run_nil hrun
  refine ⟨rfl, ?_⟩
  rcases hmid with rfl | hrewritten
  · exact fun _ => rfl
  · exact hrewritten.find_eq fun loc bytes => (hsame loc bytes).mp

theorem le_of_find_eq (h : ∀ loc, mid.find loc = fs.find loc) : fs ≤ mid := fun loc _ hf => (h loc).trans hf

/-- Nothing was done: the second run does what the first one would have. -/
private theorem repeats_of_sameFiles (hrun : (plan.files env keyName).run plan.collabKeys fs = some (new, fs₁))
    (hmid : mid = fs₁ ∨ Rewritten env plan.attributesPath fs₁ mid)
    (h₀ : plan.concluded env keyName fs = some (fs₀, events₀)) (hsame : SameFiles fs mid) :
    Repeats fs₀ events₀ (plan.concluded env keyName mid) := by
  obtain ⟨rfl, hfind⟩ := find_eq_of_sameFiles hrun hmid hsame
  rcases hmid with rfl | hrewritten
  · exact ⟨fs₀, events₀, h₀, fun _ => Iff.rfl, fun _ => rfl⟩
  have hhas (collab : Bytes × Bool) (hc : collab ∈ plan.collabKeys) :
      isThere env (plan.filePath keyName collab) fs₁ = true := Resume.Maker.has_of_run hrun collab hc
  obtain ⟨newAttributes, hwritten, hcommit⟩ := (concluded_of_has hhas).mp h₀
  rcases attributesWritten_cases hwritten with ⟨-, rfl, rfl⟩ | ⟨hmissing, -, -⟩
  · refine ⟨mid, events₀, (concluded_of_has fun collab hc => ?_).mpr ⟨[], ?_, hcommit⟩, fun _ => Iff.rfl, hfind⟩
    · exact isThere_mono (le_of_find_eq hfind) (hhas collab hc)
    · exact attributesWritten_of_isThere hrewritten.isThere
  · obtain ⟨loc, bytes, -, hn, hdiff⟩ := hrewritten.fresh hmissing
    rw [← hfind loc, hdiff.at_self] at hn
    cases hn

/-- The second run comes to the same tree only if no file was lost. -/
theorem le_of_repeats {plan' : Plan} {fs₂ : FileSystem} {newAttributes : List Bytes}
    (hmid : mid = fs₁ ∨ Rewritten env plan.attributesPath fs₁ mid)
    (hwritten : attributesWritten env plan.attributesPath fs₁ = some (newAttributes, fs₀))
    (hagain : plan'.concluded env keyName mid = some (fs₂, events)) (hfind : ∀ loc, fs₂.find loc = fs₀.find loc) :
    fs₁ ≤ mid ∧ (newAttributes = [] → ∀ loc, mid.find loc = fs₁.find loc) := by
  rcases hmid with rfl | hrewritten
  · exact ⟨le_refl _, fun _ _ => rfl⟩
  rcases attributesWritten_cases hwritten with ⟨-, rfl, rfl⟩ | ⟨hmissing, rfl, -⟩
  · have heq := hrewritten.find_eq fun loc bytes hf => (hfind loc).symm.trans (concluded_le hagain _ _ hf)
    exact ⟨le_of_find_eq heq, fun _ => heq⟩
  · obtain ⟨loc, bytes, -, hn, hdiff⟩ := hrewritten.fresh hmissing
    exact ⟨hdiff.extends hn, fun h => by cases h⟩

/-- Where the second run makes up for the first, the first had done nothing. -/
private theorem sameFiles_of_repeats (hrun : (plan.files env keyName).run plan.collabKeys fs = some (new, fs₁))
    (hmid : mid = fs₁ ∨ Rewritten env plan.attributesPath fs₁ mid)
    (h₀ : plan.concluded env keyName fs = some (fs₀, events₀))
    (hagain : Repeats fs₀ events₀ (plan.concluded env keyName mid)) : SameFiles fs mid := by
  obtain ⟨new', fs₁', newAttributes, hrun', hwritten, hcommit⟩ := concluded_iff.mp h₀
  cases hrun.symm.trans hrun'
  obtain ⟨fs₂, events, hconcluded, hcommitted, hfind⟩ := hagain
  obtain ⟨hle, heq⟩ := le_of_repeats hmid hwritten hconcluded hfind
  have hhas (collab : Bytes × Bool) (hc : collab ∈ plan.collabKeys) :
      isThere env (plan.filePath keyName collab) mid = true :=
    isThere_mono hle (Resume.Maker.has_of_run hrun collab hc)
  obtain ⟨newAttributes', hwritten', hcommit'⟩ := (concluded_of_has hhas).mp hconcluded
  have hmissing (path : Bytes) (hpath : path ∈ new.map (plan.filePath keyName) ++ newAttributes) :
      isThere env path mid = false := by
    rw [← committed_of_committing hcommit, ← hcommitted, committed_of_committing hcommit'] at hpath
    rcases attributesWritten_cases hwritten' with ⟨-, rfl, -⟩ | ⟨hmissing, rfl, -⟩
    · cases hpath
    · obtain rfl := List.mem_singleton.mp hpath
      exact hmissing
  obtain rfl : new = [] := by
    rw [List.eq_nil_iff_forall_not_mem]
    intro collab hc
    obtain ⟨loc, bytes, hr, -, hf⟩ := fresh_of_run hrun collab hc
    have hthere := isThere_mono hle (isThere_iff.mpr ⟨_, FileSystem.stat_ok.mpr ⟨loc, hr, hf⟩⟩)
    rw [hmissing _ (List.mem_append_left _ (List.mem_map_of_mem hc))] at hthere
    cases hthere
  obtain rfl := Resume.Maker.eq_of_run_nil hrun
  have hsame (h : ∀ loc, mid.find loc = fs₁.find loc) : SameFiles fs₁ mid := fun loc bytes => by rw [h loc]
  rcases attributesWritten_cases hwritten with ⟨-, hnil, -⟩ | ⟨-, rfl, -⟩
  · exact hsame (heq hnil)
  · rcases hmid with rfl | hrewritten
    · exact hsame fun _ => rfl
    · have hthere := hrewritten.isThere
      rw [hmissing plan.attributesPath (by simp)] at hthere
      cases hthere

end

end Plan

/-- What was planned is planned again as long as nothing is lost. -/
private theorem planned_of_le {vars : AddGpgUserOptions} {args : List Bytes} {repo : Repo} {plan : Plan}
    {mid : FileSystem}
    (h : planned env vars args repo = some plan) (hle : repo.fs ≤ mid) :
    planned env vars args { repo with fs := mid } = some plan := by
  unfold planned at h ⊢
  split_ifs at h ⊢
  obtain ⟨collabKeys, hlooked, h⟩ := Option.bind_eq_some_iff.mp h
  obtain ⟨keyFile, hkeyFile, h⟩ := Option.bind_eq_some_iff.mp h
  rw [hlooked, Option.bind_some, installedKeyFile_of_le hle hkeyFile]
  exact h

/-- After a run that was left at some point, the next one makes up for it exactly when the first has
left the files as they were. -/
private theorem repeats_iff {vars : AddGpgUserOptions} {args : List Bytes} {repo : Repo} {plan : Plan}
    {fs₀ mid : FileSystem}
    {events₀ : List Event} (hplan : planned env vars args repo = some plan)
    (h₀ : plan.concluded env vars.keyName repo.fs = some (fs₀, events₀))
    (hleft : plan.Left env vars.keyName repo.fs mid) :
    Plan.Repeats fs₀ events₀ (sharing env vars args { repo with fs := mid }) ↔ SameFiles repo.fs mid := by
  have hsharing (hle : repo.fs ≤ mid) :
      sharing env vars args { repo with fs := mid } = plan.concluded env vars.keyName mid := by
    rw [sharing, planned_of_le hplan hle]
    rfl
  cases hleft with
  | sharing hmid =>
    rw [hsharing hmid.le]
    exact Plan.repeats_interrupted hmid h₀
  | @shared new fs₁ mid hrun hmid =>
    constructor
    · intro hagain
      obtain ⟨fs₂, events, hagain', hcommitted, hfind⟩ := hagain
      obtain ⟨plan', -, hconcluded⟩ := Option.bind_eq_some_iff.mp hagain'
      obtain ⟨new', fs₁', newAttributes, hrun', hwritten, -⟩ := Plan.concluded_iff.mp h₀
      cases hrun.symm.trans hrun'
      have hle := (Plan.le_of_repeats hmid hwritten hconcluded hfind).1
      rw [hsharing (le_trans (Resume.Maker.le_of_run hrun) hle)] at hagain'
      exact Plan.sameFiles_of_repeats hrun hmid h₀ ⟨fs₂, events, hagain', hcommitted, hfind⟩
    · intro hsame
      obtain ⟨rfl, hfind⟩ := Plan.find_eq_of_sameFiles hrun hmid hsame
      rw [hsharing (Plan.le_of_find_eq hfind)]
      exact Plan.repeats_of_sameFiles hrun hmid h₀ hsame

/-- What is seen of two runs tells what they have committed. -/
theorem committed_seen {w w' : World} {path : Bytes} :
    Committed (w.trace ++ w'.trace) path ↔ Committed (w.seen.2 ++ w'.seen.2) path := by
  simp [World.seen, Committed, List.mem_filter, Event.visible]

/-- The run after `w₁` succeeds, and all in all as many files are committed and there as after a run
without failures. -/
def Retried (env : Env) (args : List Bytes) (repo : Repo) (w₁ : World) : Prop :=
  let w₀ := (addGpgUser env args (repo.start env)).2
  let again := addGpgUser env args (w₁.toRepo.start env)
  again.1 = .ok 0 ∧ (∀ path, Committed (w₁.trace ++ again.2.trace) path ↔ Committed w₀.trace path) ∧
    ∀ loc, again.2.fs.find loc = w₀.fs.find loc

/-- A run that is seen to have come to something is repeated exactly when the next one comes to the same. -/
private theorem retried_iff (h : Reliable env) {vars : AddGpgUserOptions} {args rest : List Bytes}
    (hargs : parseOptions addGpgUserOptions {} args = .ok (vars, rest)) (hcommit : vars.noCommit = false)
    {repo : Repo} {fs₀ : FileSystem} {events₀ : List Event} {w₁ : World}
    (h₀ : (addGpgUser env args (repo.start env)).2.seen = ({ repo with fs := fs₀ }, events₀))
    (hw₁ : Uncommitted w₁.seen.2) :
    Retried env args repo w₁ ↔ Plan.Repeats fs₀ events₀ (sharing env vars rest w₁.toRepo) := by
  have hfs₀ : (addGpgUser env args (repo.start env)).2.fs = fs₀ := congrArg (fun s => s.1.fs) h₀
  have hevents₀ (path : Bytes) :
      Committed (addGpgUser env args (repo.start env)).2.trace path ↔ Committed events₀ path := by
    have hseen := @committed_seen (repo.start env) (addGpgUser env args (repo.start env)).2 path
    rw [h₀] at hseen
    exact hseen
  unfold Retried
  rcases (addGpgUser_completes h hargs hcommit).run (w := w₁.toRepo.start env) rfl with
    ⟨hok, fs, events, hvalue, hseen⟩ | ⟨hfail, hnone⟩
  · obtain ⟨plan, -, hconcluded⟩ := Option.bind_eq_some_iff.mp hvalue
    obtain ⟨new, fs₁, newAttributes, -, -, hcommitting⟩ := Plan.concluded_iff.mp hconcluded
    have hevents (path : Bytes) : Committed (w₁.trace ++
        (addGpgUser env args (w₁.toRepo.start env)).2.trace) path ↔ Committed events path := by
      rw [committed_seen, hseen]
      exact (committed_append hw₁ hcommitting).trans (committed_of_committing hcommitting).symm
    have hfs : (addGpgUser env args (w₁.toRepo.start env)).2.fs = fs := congrArg (fun s => s.1.fs) hseen
    simp only [hfs, hfs₀, hevents, hevents₀]
    constructor
    · exact fun hretried => ⟨fs, events, hvalue, hretried.2⟩
    · rintro ⟨fs', events', he, hrest⟩
      cases hvalue.symm.trans he
      exact ⟨hok, hrest⟩
  · constructor
    · exact fun hretried => absurd hretried.1 hfail
    · rintro ⟨fs, events, he, -⟩
      cases hnone.symm.trans he

private theorem lookedUp_reliable {fails : Nat → Bool} {short : Nat → Nat} {trusted : Bool} {args : List Bytes} :
    lookedUp { env with fails, short } trusted args = lookedUp env trusted args := by
  induction args with
  | nil => rfl
  | cons arg args ih =>
    rw [lookedUp, lookedUp, ih]
    rfl

/-- What fails has no part in the plan. -/
theorem planned_reliable {fails : Nat → Bool} {short : Nat → Nat} {vars : AddGpgUserOptions} {noCommit : Bool}
    {args : List Bytes} {repo : Repo} :
    planned { env with fails, short } { vars with noCommit } args repo = planned env vars args repo := by
  unfold planned
  rw [lookedUp_reliable]
  rfl

theorem Plan.Left.reliable {plan : Plan} {fails : Nat → Bool} {short : Nat → Nat} {keyName : Option Bytes}
    {fs mid : FileSystem} (h : plan.Left { env with fails, short } keyName fs mid) : plan.Left env keyName fs mid := by
  cases h with
  | sharing hmid => exact .sharing hmid
  | shared hrun hmid => exact .shared hrun hmid

/-- When a run of `add_gpg_user` that would succeed fails, however it fails, running it again makes up for that
exactly when the first run has neither made a file nor changed one. -/
theorem addGpgUser_retry (h : Reliable env) (fails : Nat → Bool) (short : Nat → Nat) {vars : AddGpgUserOptions}
    {noCommit : Bool} {args args₁ rest : List Bytes}
    (hargs : parseOptions addGpgUserOptions {} args = .ok (vars, rest)) (hcommit : vars.noCommit = false)
    (hargs₁ : parseOptions addGpgUserOptions {} args₁ = .ok ({ vars with noCommit }, rest)) {repo : Repo}
    (h₀ : (addGpgUser env args (repo.start env)).1 = .ok 0) {result : Except Exception Nat} {w₁ : World}
    (h₁ : addGpgUser { env with fails, short } args₁ (repo.start env) = (result, w₁)) (hfail : result ≠ .ok 0) :
    Retried env args repo w₁ ↔ SameFiles repo.fs w₁.fs := by
  let env₁ : Env := { env with fails, short }
  rcases (addGpgUser_completes (s := (repo, [])) h hargs hcommit).run (w := repo.start env) rfl with
    ⟨-, fs₀, events₀, hvalue, hseen⟩ | ⟨hfail₀, -⟩
  swap
  · exact absurd h₀ hfail₀
  obtain ⟨plan, hplan, hconcluded⟩ := Option.bind_eq_some_iff.mp hvalue
  have hstops := (@addGpgUser_stops env₁ (repo, []) _ nofun _ _ hargs₁).run (w := repo.start env) rfl
  rw [h₁] at hstops
  obtain ⟨⟨mid, hrepo, hmid⟩, hevents⟩ := hstops hfail
  have hfs : w₁.fs = mid := congrArg Repo.fs hrepo
  rw [retried_iff h hargs hcommit hseen hevents, hfs, show w₁.toRepo = { repo with fs := mid } from hrepo]
  rcases hmid with rfl | ⟨plan', hplan', hleft⟩
  · refine ⟨fun _ _ _ => Iff.rfl, fun _ => ⟨fs₀, events₀, hvalue, fun _ => Iff.rfl, fun _ => rfl⟩⟩
  · rw [planned_reliable, show planned env vars rest repo = some plan from hplan] at hplan'
    cases hplan'
    exact repeats_iff hplan hconcluded hleft.reliable

/-- A gpg with one public key. -/
def keyringEnv : Env :=
  { markingEnv with publicKeys := fun _ => some (str "pub:u:4096:1:AB12:1:::u:::\nfpr:::::::::AB12:\n") }

/-- The run in which `git add` fails. -/
def addFailing : Except Exception Nat × World :=
  addGpgUser { keyringEnv with fails := (· = 21) } [str "alice"] (initialised.start keyringEnv)

private theorem parse_alice : parseOptions addGpgUserOptions {} [str "alice"] = .ok ({}, [str "alice"]) := by
  decide +kernel

/-- The files that adding the collaborator makes. -/
private def aliceFiles : List Bytes := [str "//.git-crypt/keys/default/0/AB12.gpg", str "//.git-crypt/.gitattributes"]

private theorem addGpgUser_alice : (addGpgUser keyringEnv [str "alice"] (initialised.start keyringEnv)).1 = .ok 0 ∧
    (addGpgUser keyringEnv [str "alice"] (initialised.start keyringEnv)).2.seen.2 = [.ran (.gitAdd aliceFiles) 0,
      .ran (.gitCommit (str "Add 1 git-crypt collaborator\n\nNew collaborators:\n\n    AB12\n        \n") aliceFiles) 0] := by
  decide +kernel

private theorem addFailing_fails : addFailing.1 ≠ .ok 0 ∧ addFailing.2.seen.2 = [.ran (.gitAdd aliceFiles) 128] ∧
    (addGpgUser keyringEnv [str "alice"] (addFailing.2.toRepo.start keyringEnv)).1 = .ok 0 ∧
    (addGpgUser keyringEnv [str "alice"] (addFailing.2.toRepo.start keyringEnv)).2.seen.2 = [] := by
  decide +kernel

theorem addGpgUser_retry_addFailing :
    Retried keyringEnv [str "alice"] initialised addFailing.2 ↔ SameFiles initialised.fs addFailing.2.fs :=
  @addGpgUser_retry keyringEnv (fun _ => rfl) (· = 21) keyringEnv.short {} false [str "alice"] [str "alice"]
    [str "alice"] parse_alice rfl parse_alice initialised addGpgUser_alice.1 addFailing.1 addFailing.2 Prod.mk.eta.symm
    addFailing_fails.1

/-- After `git add` has failed, the collaborator's file is there, and no later run commits it. -/
theorem not_retried_addFailing :
    (addGpgUser keyringEnv [str "alice"] (initialised.start keyringEnv)).1 = .ok 0 ∧ addFailing.1 ≠ .ok 0 ∧
      (addGpgUser keyringEnv [str "alice"] (addFailing.2.toRepo.start keyringEnv)).1 = .ok 0 ∧
      ¬ Retried keyringEnv [str "alice"] initialised addFailing.2 := by
  obtain ⟨hsucceeds, hrun⟩ := addGpgUser_alice
  obtain ⟨hfails, hfailed, hagain, hnothing⟩ := addFailing_fails
  refine ⟨hsucceeds, hfails, hagain, fun ⟨_, hcommitted, _⟩ => ?_⟩
  have h := (hcommitted (str "//.git-crypt/.gitattributes")).mpr ?_
  · rw [committed_seen, hfailed, hnothing] at h
    simp [Committed] at h
  · have h := @committed_seen (initialised.start keyringEnv)
      (addGpgUser keyringEnv [str "alice"] (initialised.start keyringEnv)).2 (str "//.git-crypt/.gitattributes")
    rw [hrun] at h
    exact h.mpr ⟨⟨aliceFiles, .head _, by simp [aliceFiles]⟩, _, aliceFiles, .tail _ (.head _), by simp [aliceFiles]⟩

end GitCrypt
