import GitCrypt.Collaborators
import GitCrypt.Footprint
import GitCrypt.KeySupply
import GitCrypt.Passthrough

/-! What `add-gpg-user` and `export-key` hand on: key files whose keys were made for their names,
where those in the repository were. -/
namespace GitCrypt
open Iostream Posix FileSystem Prog
variable {env : Env} {gitDir : Location} {made : MadeKeys}

/-- No path with such an extension leads to the place of a key. -/
theorem resolve_extension_elsewhere {ext : Bytes} (hslash : (47 : UInt8) ∉ ext) (hlength : 2 < ext.length)
    (hdot : (46 : UInt8) ∈ ext) (fs : FileSystem) (cwd : Location) (path : Bytes) {keyName : Option Bytes}
    (hn : LegalKeyName keyName) : fs.resolve cwd (path ++ ext) ≠ .ok (keyLocation gitDir keyName) := by
  intro h
  obtain ⟨name, loc, hloc⟩ := resolve_extension hslash hlength h
  have hname : keyName.getD (str "default") = name ++ ext := (List.cons.inj hloc).1
  have hmem : (46 : UInt8) ∈ keyName.getD (str "default") := hname ▸ List.mem_append_right _ hdot
  cases keyName with
  | none => exact absurd hmem (by decide)
  | some keyName => exact absurd ((validKeyName_iff.mp (hn keyName rfl)).2.2.1 46 hmem) (by decide)

private theorem repoKeyPath_elsewhere (keysPath : Bytes) (keyName : Option Bytes) (keyVersion : UInt32)
    (fingerprint : Bytes)
    (fs : FileSystem) (cwd : Location) {other : Option Bytes} (hn : LegalKeyName other) :
    fs.resolve cwd (repoKeyPath keysPath keyName keyVersion fingerprint) ≠ .ok (keyLocation gitDir other) := by
  rw [repoKeyPath, ← List.append_assoc]
  exact resolve_extension_elsewhere (by decide) (by decide) (by decide) fs cwd _ hn

/-! ### `add-gpg-user` keeps the keys -/

theorem gpgEncryptToFile_keepsKeys {path : Bytes}
    (hplace : ∀ fs : FileSystem, ∀ keyName, LegalKeyName keyName →
      fs.resolve env.cwd path ≠ .ok (keyLocation gitDir keyName)) (fingerprint : Bytes) (trusted : Bool) (data : Bytes) :
    KeepsKeys env gitDir made (gpgEncryptToFile env path fingerprint trusted data) := by
  refine .bind gpgGetExecutable_quiet.keepsKeys fun program => .bind (execCommand_preserves
    (I := fun s => KeysKept env gitDir made s.1) (fun _ => rfl) fun w hw => ?_) fun _ =>
      (requireSuccess_quiet _ _).keepsKeys
  dsimp only [Command.run]
  split
  · split
    · rename_i fs hwrite
      exact KeysKept.writeElsewhere (r := w.toRepo) hw (hplace w.fs) hwrite
    · exact hw
  · exact hw

theorem encryptRepoKeyTo_keepsKeys (keyName : Option Bytes) (keyVersion : UInt32) (keyFileData keysPath : Bytes)
    (collabKeys : List (Bytes × Bool)) :
    KeepsKeys env gitDir made (encryptRepoKeyTo env keyName keyVersion keyFileData keysPath collabKeys) := by
  induction collabKeys with
  | nil => exact .pure _
  | cons collabKey collabKeys ih =>
    unfold encryptRepoKeyTo
    refine .bind (access_quiet _).keepsKeys fun res => ?_
    split
    · exact ih
    · refine .bind (mkdirParent_keepsKeys _) fun _ => .bind (gpgEncryptToFile_keepsKeys ?_ _ _ _) fun _ =>
        .bind ih fun _ => .pure _
      exact fun fs _ hn => repoKeyPath_elsewhere _ _ _ _ fs env.cwd hn

theorem writeStateGitattributes_keepsKeys (statePath : Bytes) :
    KeepsKeys env gitDir made (writeStateGitattributes env (statePath ++ str "/.gitattributes")) := by
  have hplace (fs : FileSystem) (keyName : Option Bytes) (hn : LegalKeyName keyName) :
      fs.resolve env.cwd (statePath ++ str "/.gitattributes") ≠ .ok (keyLocation gitDir keyName) := by
    rw [show str "/.gitattributes" = str "/" ++ str ".gitattributes" from rfl, ← List.append_assoc]
    exact resolve_extension_elsewhere (by decide) (by decide) (by decide) fs env.cwd _ hn
  refine .bind (access_quiet _).keepsKeys fun res => ?_
  split
  · exact .pure _
  · refine .bind (.bind (syscall_edit_preserves (I := fun s => KeysKept env gitDir made s.1) (fun _ => rfl)
      fun s fs hs hw => hs.writeElsewhere (hplace s.1.fs) hw) fun res => ?_) fun _ =>
        .ite (fun _ => .pure _) fun _ => .bind (logLines_quiet _).keepsKeys fun _ => .pure _
    split
    · exact .pure _
    · exact writeContents_preserves (I := fun s => KeysKept env gitDir made s.1)
        (fun s edit fs hs hw => hs.writeElsewhere (hplace s.1.fs) hw) _

theorem commitNewFiles_keepsKeys (noCommit : Bool) (collabKeys : List (Bytes × Bool)) (newFiles : List Bytes) :
    KeepsKeys env gitDir made (commitNewFiles env noCommit collabKeys newFiles) := by
  have hcommand {command : Command} (hw : command.writes = false) :
      KeepsKeys env gitDir made (execCommand env command) := (execCommand_readsOnly hw).keepsKeys
  refine .ite (fun _ => .pure _) fun _ => .bind (hcommand rfl) fun _ =>
    .ite (fun _ => (leave_quiet _ _).keepsKeys) fun _ =>
    .ite (fun _ => .pure _) fun _ => .bind (commitMessage_quiet _).keepsKeys fun _ => .bind (hcommand rfl) fun _ => ?_
  exact .ite (fun _ => (leave_quiet _ _).keepsKeys) fun _ => .pure _

theorem getRepoStatePath_quiet : Quiet (getRepoStatePath env) := by
  refine .bind (execCommand_quiet rfl fun _ => rfl) fun _ => .bind (requireSuccess_quiet _ _) fun _ =>
    .ite (.bind (.throw _) fun _ => ?_) ?_ <;>
  exact .bind (gitHasConfig_quiet _) fun _ => .ite (.bind (getGitConfig_quiet _) fun _ => .pure _) (.pure _)

theorem lookupCollaborators_quiet (trusted : Bool) (args : List Bytes) :
    Quiet (lookupCollaborators env trusted args) := by
  have hlookup (query : Bytes) : Quiet (gpgLookupKey env query) := by
    refine .bind gpgGetExecutable_quiet fun _ => .bind (execCommand_quiet rfl fun _ => rfl) fun _ => .ite (.pure _) ?_
    split
    · exact .pure _
    · exact .throw _
  induction args with
  | nil => exact .pure _
  | cons arg args ih =>
    refine .bind (hlookup arg) fun res => ?_
    split
    · exact .bind (logLines_quiet _) fun _ => .pure _
    · refine .bind ih fun res => ?_
      split
      · exact .pure _
      · exact .pure _
    · exact .bind (logLines_quiet _) fun _ => .pure _

theorem shareKey_keepsKeys (vars : AddGpgUserOptions) (key : Entry) (collabKeys : List (Bytes × Bool)) :
    KeepsKeys env gitDir made (shareKey env vars key collabKeys) := by
  refine .bind getRepoStatePath_quiet.keepsKeys fun _ => .bind (encryptRepoKeyTo_keepsKeys _ _ _ _ _) fun _ =>
    .bind (writeStateGitattributes_keepsKeys _) fun res => ?_
  split
  · exact .pure _
  · exact commitNewFiles_keepsKeys _ _ _

theorem addGpgUser_keepsKeys (args : List Bytes) : KeepsKeys env gitDir made (addGpgUser env args) := by
  unfold addGpgUser
  split
  · exact .throw _
  · refine .ite (fun _ => (leave_quiet _ _).keepsKeys) fun _ =>
      .bind (lookupCollaborators_quiet _ _).keepsKeys fun res => ?_
    split
    · exact .pure _
    · refine .bind (loadKey_quiet _ _ _).keepsKeys fun keyFile => ?_
      split
      · exact (leave_quiet _ _).keepsKeys
      · exact shareKey_keepsKeys _ _ _

/-! ### Keys that are loaded -/

section
variable {r : Repo} {keyName : Option Bytes} {keyFile : KeyFile} {key : Entry}

theorem loadBytes_of_installed {fs : FileSystem} (h : installedKeyFile env keyName fs = some keyFile) :
    ∃ bytes, readable env (internalKeyPath env keyName) fs = some bytes ∧ KeyFile.loadBytes bytes = .ok keyFile := by
  obtain ⟨bytes, hread, hload⟩ := Option.bind_eq_some_iff.mp h
  refine ⟨bytes, hread, ?_⟩
  cases hl : KeyFile.loadBytes bytes with
  | error e =>
    rw [hl] at hload
    cases hload
  | ok loadedFile =>
    rw [hl] at hload
    cases hload
    rfl

theorem KeysKept.installed (h : KeysKept env gitDir made r) (hn : LegalKeyName keyName)
    (hinstalled : installedKeyFile env keyName r.fs = some keyFile) :
    keyFile.Storable ∧ keyFile.getKeyName = keyName ∧ keyFile.From made := by
  obtain ⟨bytes, hread, hload⟩ := loadBytes_of_installed hinstalled
  refine ⟨KeyFile.storable_of_loadBytes hload, ?_⟩
  unfold readable at hread
  split at hread
  · rename_i hstat
    cases hread
    obtain ⟨loc, hresolve, hfile⟩ := stat_ok.mp hstat
    rw [h.located.eq_keyLocation hn.isName hresolve] at hfile
    exact h.keys keyName hn _ hfile keyFile hload
  · cases hread
    cases hload
  · cases hread

/-- The key file that `load_key` loads for a name holds keys that were made for it. -/
theorem loadKey_from (h : KeysKept env gitDir made r) (hn : LegalKeyName keyName) :
    Triple (fun w => w.toRepo = r) (loadKey env keyName none none)
      (fun keyFile w => w.toRepo = r ∧ keyFile.Storable ∧ keyFile.getKeyName = keyName ∧ keyFile.From made)
      fun _ _ => True := by
  refine .of_start fun w hw => ?_
  refine (loadKey_learns (s := w.seen) keyName).weaken (fun _ he => he ▸ rfl) (fun keyFile w' hw' => ?_)
    fun _ _ _ => trivial
  have hrepo : w'.toRepo = r := (congrArg Prod.fst hw'.1).trans hw
  refine ⟨hrepo, h.installed hn ?_⟩
  rw [← hw]
  exact hw'.2

theorem KeyFile.From.genuine (h : keyFile.From made) (hs : keyFile.Storable) : Genuine made keyFile.store :=
  (h.fits hs List.prefix_rfl).genuine

private theorem genuine_repoKeyData (hn : LegalKeyName keyName) (h : key ∈ made keyName) :
    Genuine made (repoKeyData keyName key) := by
  refine KeyFile.From.genuine (fun version key' hget => ?_) (KeyFile.storable_setKeyName_add _ hn key)
  rw [KeyFile.getKeyName_setKeyName_add _ hn]
  rw [KeyFile.get_add] at hget
  split_ifs at hget
  · cases hget
    exact h
  · cases hget

end

/-! ### What is handed on -/

theorem shareKey_steps {S : Set Bytes} {vars : AddGpgUserOptions} {key : Entry} (h : repoKeyData vars.keyName key ∈ S)
    (collabKeys : List (Bytes × Bool)) : Steps env S (shareKey env vars key collabKeys) := by
  have hmessage : Steps env S (commitMessage env collabKeys) := .bind (collaboratorLines_steps _) fun _ => .pure _
  refine .bind getRepoStatePath_steps fun _ => .bind (encryptRepoKeyTo_steps _ _ _ _ h) fun _ =>
    .bind (writeStateGitattributes_steps _) fun res => ?_
  split
  · exact .pure _
  · refine .ite (.pure _) (.bind (execCommand_steps rfl) fun _ => .ite (leave_steps _ _) ?_)
    exact .ite (.pure _) (.bind hmessage fun _ => .bind (execCommand_steps rfl) fun _ =>
      .ite (leave_steps _ _) (.pure _))

/-- Whatever `add-gpg-user` has encrypted for the key of a legal name is genuine. -/
theorem addGpgUser_encrypts {args : List Bytes}
    (hname : ∀ vars rest, parseOptions addGpgUserOptions {} args = .ok (vars, rest) → LegalKeyName vars.keyName) :
    Triple (fun w => w.trace = [] ∧ KeysKept env gitDir made w.toRepo) (addGpgUser env args)
      (fun _ w => Encrypted {bytes | Genuine made bytes} w.trace)
      fun _ w => Encrypted {bytes | Genuine made bytes} w.trace := by
  have hsteps {α : Type} {m : Action α} (h : Steps env {bytes | Genuine made bytes} m) :
      Maintains (fun w => Encrypted {bytes | Genuine made bytes} w.trace) m :=
    (h.maintains 0).weaken (fun _ hw => ⟨hw, Nat.zero_le _⟩) (fun _ _ hw => hw.1) fun _ _ hw => hw.1
  refine .of_start fun w ⟨htrace, hkept⟩ => ?_
  have hstart : Encrypted {bytes | Genuine made bytes} w.trace ∧ w.toRepo = w.toRepo := by
    rw [htrace]
    exact ⟨(fun _ _ hmem => by cases hmem), rfl⟩
  refine Triple.pre (P := fun w' => Encrypted {bytes | Genuine made bytes} w'.trace ∧ w'.toRepo = w.toRepo) ?_
    fun _ he => he ▸ hstart
  unfold addGpgUser
  split
  · exact .throw fun _ hw => hw.1
  · rename_i vars rest hparse
    refine .ite (fun _ => (hsteps (leave_steps _ _)).pre fun _ hw => hw.1) fun _ => ?_
    refine .bind (((hsteps (lookupCollaborators_steps _ _)).conj
      ((lookupCollaborators_quiet _ _).readsOnly.triple (· = w.toRepo))).weakenError fun _ _ hw => hw.1) fun res => ?_
    split
    · exact .pure fun _ hw => hw.1
    · refine .bind (((hsteps (loadKey_steps _ _ _)).conj (loadKey_from hkept (hname vars rest hparse))).weakenError
        fun _ _ hw => hw.1) fun keyFile => ?_
      split
      · exact (hsteps (leave_steps _ _)).pre fun _ hw => hw.1
      · rename_i key hlatest
        refine .of_start fun w' ⟨hw', _, _, hkeyName, hfrom⟩ => ?_
        refine Triple.pre (hsteps (shareKey_steps ?_ _)) fun _ he => he ▸ hw'
        refine genuine_repoKeyData (hname vars rest hparse) ?_
        rw [← hkeyName]
        exact hfrom _ _ (KeyFile.getLatest_eq_some.mp hlatest).1

/-- The bytes are in the file, or, for `-`, on the standard output. -/
def WrittenTo (env : Env) (outFileName bytes : Bytes) (w : World) : Prop :=
  if outFileName = str "-" then w.cout.written = bytes else w.fs.readFile env.cwd outFileName = .ok bytes

theorem WrittenTo.unique {outFileName bytes bytes' : Bytes} {w : World} (h : WrittenTo env outFileName bytes w)
    (h' : WrittenTo env outFileName bytes' w) : bytes = bytes' := by
  unfold WrittenTo at h h'
  split_ifs at h h'
  · exact h.symm.trans h'
  · exact Except.ok.inj (h.symm.trans h')

private theorem outputKeyFile_contents (keyFile : KeyFile) (outFileName : Bytes) :
    Triple (fun w => w.cout = {}) (outputKeyFile env keyFile outFileName)
      (fun status w => status = 0 → WrittenTo env outFileName keyFile.store w) fun _ _ => True := by
  refine .ite (fun hdash w hw => ?_) fun hfile => ?_
  · intro _
    rw [WrittenTo, if_pos hdash]
    change (w.cout.write keyFile.store).written = _
    rw [hw]
    exact List.nil_append _
  · have hstore : Triple (fun w => w.cout = {}) (storeToFile env keyFile outFileName)
        (fun ok w => ok = true → w.fs.readFile env.cwd outFileName = .ok keyFile.store) fun _ _ => True :=
      Triple.weaken (storeToFile_contents keyFile outFileName) (fun _ _ => trivial) (fun _ _ => id) fun _ _ _ => trivial
    refine .bind hstore fun ok => .ite (fun hok => .pure fun w hw _ => ?_) fun _ => ?_
    · rw [WrittenTo, if_neg hfile]
      exact hw hok
    · intro w hw h
      cases h

/-- What an `export-key` with these arguments has written by then, for a legal name. -/
def exported (env : Env) (args : List Bytes) (w : World) : Set Bytes :=
  match parseOptions (keyNameOptions fun value _ => some value) (none : Option Bytes) args with
  | .ok (keyName, outFileName :: _) => {bytes | LegalKeyName keyName ∧ WrittenTo env outFileName bytes w}
  | _ => ∅

/-- `export-key` writes the key file that it finds in the place of the name. -/
theorem exportKey_writes {args rest : List Bytes} {keyName : Option Bytes} {r : Repo}
    (hparse : parseOptions (keyNameOptions fun value _ => some value) (none : Option Bytes) args = .ok (keyName, rest)) :
    Triple (fun w => w.cout = {} ∧ w.toRepo = r) (exportKey env args)
      (fun status w => status = 0 → ∃ outFileName keyFile, rest = [outFileName] ∧
        installedKeyFile env keyName r.fs = some keyFile ∧ WrittenTo env outFileName keyFile.store w)
      fun _ _ => True := by
  unfold exportKey
  rw [hparse]
  refine .ite (fun _ => ?_) fun hlength => ?_
  · intro w hw h
    cases h
  · obtain ⟨outFileName, rfl⟩ := List.length_eq_one_iff.mp (not_not.mp hlength)
    refine .of_start fun w ⟨hcout, hrepo⟩ => ?_
    refine .bind (((loadKey_keepsStreams _ _ _).triple fun s => s.2 = {}).conj (loadKey_learns (s := w.seen) keyName)
      |>.weaken (by rintro _ rfl; exact ⟨hcout, rfl⟩) (fun _ _ => id) fun _ _ _ => trivial) fun keyFile => ?_
    refine .of_start fun w' ⟨hcout', _, hinstalled⟩ => ?_
    refine (outputKeyFile_contents keyFile outFileName).weaken (fun _ he => he ▸ hcout') ?_ fun _ _ => id
    intro status w₂ hwritten hstatus
    refine ⟨outFileName, keyFile, rfl, ?_, hwritten hstatus⟩
    rw [← hrepo]
    exact hinstalled

/-- What `export-key` has written for a legal name when it returns 0 is genuine. -/
theorem exportKey_exports (args : List Bytes) :
    Triple (fun w => w.cout = {} ∧ KeysKept env gitDir made w.toRepo) (exportKey env args)
      (fun status w => status = 0 → ∀ bytes ∈ exported env args w, Genuine made bytes) fun _ _ => True := by
  refine .of_start fun w ⟨hcout, hkept⟩ => ?_
  cases hparse : parseOptions (keyNameOptions fun value _ => some value) (none : Option Bytes) args with
  | error e =>
    unfold exportKey
    rw [hparse]
    exact .throw fun _ _ => trivial
  | ok parsed =>
    obtain ⟨keyName, rest⟩ := parsed
    refine (exportKey_writes (r := w.toRepo) hparse).weaken ?_ ?_ fun _ _ => id
    · rintro _ rfl
      exact ⟨hcout, rfl⟩
    · intro status w' hwrites hstatus bytes hbytes
      obtain ⟨outFileName, keyFile, rfl, hinstalled, hwritten⟩ := hwrites hstatus
      rw [exported, hparse] at hbytes
      obtain ⟨hstorable, -, hfrom⟩ := hkept.installed hbytes.1 hinstalled
      rw [hbytes.2.unique hwritten]
      exact hfrom.genuine hstorable

end GitCrypt
