import GitCrypt.Handover

/-! What a process does with keys, whatever its command line: the key files it takes in, the keys it
makes, those it leaves in their places and those it hands on. -/
namespace GitCrypt
open Iostream Posix FileSystem Prog
variable {α : Type} {P : Primitives} {argv0 : Bytes} {i : Invoked} {gitDir : Location} {made : MadeKeys}

/-! ### `status -f` -/

/-- The tree and the configuration stay as they are. -/
abbrev KeepsRepo (m : StatusAction α) : Prop := Keeps (fun s : World × GitState => s.1.toRepo) m

theorem ReadsOnly.keepsRepo {m : Action α} (h : ReadsOnly m) : KeepsRepo (Prog.onFst m) := fun s => h s.1

theorem Quiet.keepsRepo {m : Action α} (h : Quiet m) : KeepsRepo (Prog.onFst m) := h.readsOnly.keepsRepo

section
variable {env : Env} {genv : GitEnv}

theorem execIndexCommand_keepsRepo (command : IndexCommand) : KeepsRepo (execIndexCommand env genv command) := by
  intro s
  unfold execIndexCommand
  dsimp only
  split_ifs <;> rfl

theorem checkIfObjectIsEncrypted_keepsRepo (objectId : Bytes) :
    KeepsRepo (checkIfObjectIsEncrypted env genv objectId) :=
  .bind (execIndexCommand_keepsRepo _) fun _ => .bind (requireSuccess_quiet _ _).keepsRepo fun _ => .pure _

theorem fixFile_keepsRepo (totals : StatusTotals) (filename : Bytes) : KeepsRepo (fixFile env genv totals filename) := by
  have hlog (line : Bytes) : Quiet (log line) := fun _ => rfl
  have hprint (bytes : Bytes) : Quiet (printLine bytes) := fun _ => rfl
  have hfile : KeepsRepo (checkIfFileIsEncrypted env genv filename) :=
    .bind (execIndexCommand_keepsRepo _) fun _ => .bind (requireSuccess_quiet _ _).keepsRepo fun _ =>
      .ite (.pure _) (checkIfObjectIsEncrypted_keepsRepo _)
  refine .bind (access_quiet _).keepsRepo fun res => ?_
  split
  · exact .bind (hlog _).keepsRepo fun _ => .pure _
  · refine .bind (touchFile_readsOnly _).keepsRepo fun _ => .bind (execIndexCommand_keepsRepo _) fun _ =>
      .bind (requireSuccess_quiet _ _).keepsRepo fun _ => .bind hfile fun _ => .ite ?_ ?_
    · exact .bind (hprint _).keepsRepo fun _ => .pure _
    · exact .bind (hlog _).keepsRepo fun _ => .pure _

theorem statusFiles_keepsRepo (vars : StatusOptions) (totals : StatusTotals) (files : List (Bytes × Bytes)) :
    KeepsRepo (statusFiles env genv vars totals files) := by
  have hprint (bytes : Bytes) : Quiet (printLine bytes) := fun _ => rfl
  have hunencrypted (objectId : Bytes) : KeepsRepo (blobIsUnencrypted env genv objectId) :=
    .ite (.pure _) (.bind (checkIfObjectIsEncrypted_keepsRepo _) fun _ => .pure _)
  induction files generalizing totals with
  | nil => exact .pure _
  | cons file files ih =>
    refine .bind (.bind (getFileAttributes_quiet _).keepsRepo fun _ => .ite (.bind (hunencrypted _) fun _ => ?_) ?_)
      fun _ => ih _
    · exact .ite (fixFile_keepsRepo _ _) (.ite (.bind (hprint _).keepsRepo fun _ => .pure _) (.pure _))
    · exact .ite (.bind (hprint _).keepsRepo fun _ => .pure _) (.pure _)

theorem status_keepsRepo (args : List Bytes) : KeepsRepo (status env genv args) := by
  unfold status
  split
  · exact .throw _
  · rename_i vars files hparse
    have hprint (bytes : Bytes) : Quiet (print bytes) := fun _ => rfl
    have hpaths : Quiet (statusPaths env files) := .ite (.pure _) (.bind getPathToTop_quiet fun _ => .pure _)
    cases vars.refusal files with
    | some message => exact (leave_quiet _ _).keepsRepo
    | none =>
      refine .ite (.pure _) (.bind hpaths.keepsRepo fun _ => .bind (execIndexCommand_keepsRepo _) fun _ =>
        .bind (requireSuccess_quiet _ _).keepsRepo fun _ => ?_)
      exact .bind (statusFiles_keepsRepo _ _ _) fun _ => .bind (hprint _).keepsRepo fun _ => .pure _

end

/-! ### Commands -/

/-- The arguments with which a command comes to `unlock`. -/
def unlockArgs (command : Bytes) (args : List Bytes) : Option (List Bytes) :=
  if command = str "unlock" then some args
  else if command = str "init" then initUnlockArgs args
  else none

/-- The key that a command has made. -/
def drawnIn (env : Env) (command : Bytes) (args : List Bytes) (w : World) : MadeKeys :=
  if command = str "init" then initDrawn env args w else ⊥

section
variable {r : Repo} {command : Bytes} {args : List Bytes} {m : StatusAction Nat}

/-- Files that are not in the places of keys may be written. -/
theorem KeysKept.writesOnly {env : Env} {S : Location → Prop} {s : Repo × List Event} (h : KeysKept env gitDir made r)
    (hwrites : WritesOnly S r s) (hplaced : ∀ keyName, LegalKeyName keyName → ¬ S (keyLocation gitDir keyName)) :
    KeysKept env gitDir made s.1 := by
  refine ⟨h.located.mono hwrites.tree.dirs, fun keyName hn bytes hfile => h.keys keyName hn bytes ?_⟩
  exact (hwrites.tree.files _ (hplaced keyName hn) bytes).mp hfile

/-- The commands without a footprint. -/
private theorem footprintOf_eq_none (h : footprintOf command args = none) :
    command = str "init" ∨ command = str "unlock" ∨ command = str "lock" ∨ command = str "add-gpg-user" ∨
      command = str "status" := by
  unfold footprintOf at h
  split_ifs at h with hmore hexport hkeygen hmigrate hstatus
  · exact hmore.imp_right (Or.imp_right (Or.imp_right .inl))
  · unfold exportFootprint at h
    split at h <;> cases h
  · unfold keygenFootprint at h
    split at h <;> cases h
  · unfold migrateFootprint at h
    split at h <;> cases h
  · exact .inr (.inr (.inr (.inr hstatus)))

/-- The keys are kept, with the one that the command has made. -/
abbrev KeptAfter (env : Env) (gitDir : Location) (made : MadeKeys) (command : Bytes) (args : List Bytes) (w : World) :
    Prop :=
  KeysKept env gitDir (made ⊔ drawnIn env command args w) w.toRepo

theorem KeepsKeys.keptAfter {m : Action Nat} (h : KeepsKeys i.env gitDir made m) (hkept : KeysKept i.env gitDir made r) :
    Triple (· = r.start i.env) m (fun _ => KeptAfter i.env gitDir made command args)
      fun _ => KeptAfter i.env gitDir made command args :=
  Triple.weaken h (by rintro _ rfl; exact hkept) (fun _ _ hs => hs.mono le_sup_left) fun _ _ hs => hs.mono le_sup_left

theorem handler_keepsKeys (hm : handler P argv0 i command args = some m) (hkept : KeysKept i.env gitDir made r)
    (hgenuine : ∀ unlocked ∈ unlockArgs command args, ∀ bytes, Supplied i.env unlocked r bytes → Genuine made bytes)
    (hplaced : ∀ path, footprintOf command args = some path → ∀ keyName, LegalKeyName keyName →
      ¬ LeadsTo i.env r path (keyLocation gitDir keyName)) :
    Triple (fun s => s.1 = r.start i.env) m (fun _ s => KeptAfter i.env gitDir made command args s.1)
      fun _ s => KeptAfter i.env gitDir made command args s.1 := by
  cases hfootprint : footprintOf command args with
  | some path =>
    refine .of_start fun s hs => ?_
    have hwithin : HandlerWithin i.env path r s.2 (handler P argv0 i command args) := handler_within command hfootprint
    have hafter {s' : World × GitState} (h : Within i.env path r s.2 s') :
        KeptAfter i.env gitDir made command args s'.1 :=
      (hkept.writesOnly h.1 (hplaced path hfootprint)).mono le_sup_left
    refine (hwithin m hm).weaken ?_ (fun _ _ => hafter) fun _ _ => hafter
    rintro _ rfl
    rw [Within, hs]
    exact ⟨.refl _ r, rfl⟩
  | none =>
    rcases footprintOf_eq_none hfootprint with rfl | rfl | rfl | rfl | rfl
    · obtain rfl : onFst (init i.env args) = m := Option.some.inj hm
      refine onFst_leads ((@init_keepsKeys i.env gitDir made args r hgenuine).pre ?_)
      rintro _ rfl
      exact ⟨rfl, ⟨rfl, .inl rfl⟩, hkept⟩
    · obtain rfl : onFst (unlock i.env args) = m := Option.some.inj hm
      refine onFst_leads ((@unlock_keepsKeys i.env gitDir made args r (hgenuine args rfl)).weaken ?_
        (fun _ _ hs => hs.mono le_sup_left) fun _ _ hs => hs.mono le_sup_left)
      rintro _ rfl
      exact ⟨⟨rfl, .inl rfl⟩, hkept⟩
    · obtain rfl : onFst (lock i.env args) = m := Option.some.inj hm
      exact onFst_leads ((lock_keepsKeys args).keptAfter hkept)
    · obtain rfl : onFst (addGpgUser i.env args) = m := Option.some.inj hm
      exact onFst_leads ((addGpgUser_keepsKeys args).keptAfter hkept)
    · obtain rfl : status i.env i.genv args = m := Option.some.inj hm
      refine ((status_keepsRepo args).triple (KeysKept i.env gitDir made)).weaken ?_ (fun _ _ hs => hs.mono le_sup_left)
        fun _ _ hs => hs.mono le_sup_left
      rintro s hs
      rw [hs]
      exact hkept

end

/-! ### Processes -/

/-- The bytes that the process may take for key files. -/
def Process.takesIn (p : Process) (r : Repo) : Set Bytes :=
  {bytes | ∃ args ∈ (commandLine p.args).bind fun line => unlockArgs line.1 line.2, Supplied p.invoked.env args r bytes}

/-- The key that the process has made by then. -/
def Process.draws (p : Process) (w : World) : MadeKeys :=
  (commandLine p.args).elim ⊥ fun line => drawnIn p.invoked.env line.1 line.2 w

/-- The process is not told to write a file to the place of a key. -/
def Process.WritesElsewhere (p : Process) (gitDir : Location) (r : Repo) : Prop :=
  ∀ path, footprint p.args = some path → ∀ keyName, LegalKeyName keyName →
    ¬ LeadsTo p.invoked.env r path (keyLocation gitDir keyName)

/-- What an `add-gpg-user` with these arguments has had encrypted, for a legal name. -/
def encryptedKeys (args : List Bytes) (w : World) : Set Bytes :=
  {data | (∃ vars rest, parseOptions addGpgUserOptions {} args = .ok (vars, rest) ∧ LegalKeyName vars.keyName) ∧
    ∃ command status, Event.ran command status ∈ w.trace ∧ data ∈ command.plaintext}

/-- What a command that has ended has handed on, for a legal name: an `export-key` only if it
succeeded. -/
def handedOn (env : Env) (command : Bytes) (args : List Bytes) (result : Except Exception Nat) (w : World) : Set Bytes :=
  if command = str "export-key" then {bytes | result = .ok 0 ∧ bytes ∈ exported env args w}
  else if command = str "add-gpg-user" then encryptedKeys args w
  else ∅

/-- The same for a process. -/
def Process.handsOn (p : Process) (result : Except Exception Nat) (w : World) : Set Bytes :=
  (commandLine p.args).elim ∅ fun line => handedOn p.invoked.env line.1 line.2 result w

section
variable {p : Process} {s : Repo × GitState} (hkept : KeysKept p.invoked.env gitDir made s.1)
include hkept

/-- Whatever the command line, whatever fails and however the process ends. -/
theorem Process.keepsKeys (P : Primitives) (hin : ∀ bytes ∈ p.takesIn s.1, Genuine made bytes)
    (hplaced : p.WritesElsewhere gitDir s.1) :
    KeysKept p.invoked.env gitDir (made ⊔ p.draws (p.run P s).2.1) (p.run P s).2.1.toRepo := by
  refine p.leads P (J := fun w => KeysKept p.invoked.env gitDir (made ⊔ p.draws w) w.toRepo) (hkept.mono le_sup_left)
    (fun w lines hw => hw) fun command args m hc hm => ?_
  have hdraws (w : World) : p.draws w = drawnIn p.invoked.env command args w := by rw [Process.draws, hc]; rfl
  simp only [hdraws]
  refine handler_keepsKeys hm hkept (fun unlocked hunlocked bytes hsupplied => ?_) fun path hpath => hplaced path ?_
  · exact hin bytes ⟨unlocked, by rw [hc]; exact hunlocked, hsupplied⟩
  · rw [footprint, hc]
    exact hpath

theorem Process.handsOn_genuine (P : Primitives) :
    ∀ bytes ∈ p.handsOn (p.run P s).1 (p.run P s).2.1, Genuine made bytes := by
  intro bytes hbytes
  unfold Process.handsOn at hbytes
  cases hc : commandLine p.args with
  | none =>
    rw [hc] at hbytes
    exact hbytes.elim
  | some line =>
    obtain ⟨command, args⟩ := line
    rw [hc] at hbytes
    dsimp only [Option.elim, handedOn] at hbytes
    split_ifs at hbytes with hexport hshare
    · obtain ⟨hzero, hexported⟩ := hbytes
      subst hexport
      have hrun := Process.run_of_zero (m := exportKey p.invoked.env args) hc rfl hzero
      exact (exportKey_exports args).ok ⟨rfl, hkept⟩ hrun rfl bytes hexported
    · obtain ⟨⟨vars, rest, hparse, hn⟩, program, status, hran, hdata⟩ := hbytes
      subst hshare
      have hnothing : Encrypted {bytes | Genuine made bytes} (s.1.start p.invoked.env).trace :=
        fun _ _ hmem => by cases hmem
      have hencrypted : Encrypted {bytes | Genuine made bytes} (p.run P s).2.1.trace := by
        refine p.leads P (J := fun w => Encrypted _ w.trace) hnothing (fun w lines hw => hw)
          fun command args' m hc' hm => ?_
        obtain ⟨rfl, rfl⟩ := Prod.ext_iff.mp (Option.some.inj (hc.symm.trans hc'))
        obtain rfl : onFst (addGpgUser p.invoked.env args) = m := Option.some.inj hm
        have hname (vars' : AddGpgUserOptions) (rest' : List Bytes)
            (hparse' : parseOptions addGpgUserOptions {} args = .ok (vars', rest')) : LegalKeyName vars'.keyName := by
          rw [hparse] at hparse'
          cases hparse'
          exact hn
        refine onFst_leads ((@addGpgUser_encrypts p.invoked.env gitDir made args hname).pre ?_)
        rintro _ rfl
        exact ⟨rfl, hkept⟩
      exact hencrypted program status hran bytes hdata
    · exact hbytes.elim

end

end GitCrypt
