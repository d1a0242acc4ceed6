import GitCrypt.Composition
import GitCrypt.Isolation
import GitCrypt.KeyTruncation
import GitCrypt.Processes
import GitCrypt.UnlockFailures

/-! Where the keys come from that lie in the places of a repository: whatever the program does there,
each of them was made for its name. -/
namespace GitCrypt
open Iostream Posix FileSystem Prog
variable {α : Type} {env : Env} {gitDir : Location}

/-- The keys that have been made, by the names they were made for. -/
abbrev MadeKeys := Option Bytes → Set Entry

/-- Every key in the file was made for the name of the file. -/
def KeyFile.From (made : MadeKeys) (keyFile : KeyFile) : Prop :=
  ∀ version key, keyFile.get version = some key → key ∈ made keyFile.getKeyName

/-- If these bytes are a key file at all, its keys were made for its name. -/
def Genuine (made : MadeKeys) (bytes : Bytes) : Prop :=
  ∀ keyFile, KeyFile.loadBytes bytes = .ok keyFile → keyFile.From made

/-- The bytes may stand in the place of a name. -/
def Fits (made : MadeKeys) (keyName : Option Bytes) (bytes : Bytes) : Prop :=
  ∀ keyFile, KeyFile.loadBytes bytes = .ok keyFile → keyFile.getKeyName = keyName ∧ keyFile.From made

/-- What lies in the place of a name fits it. -/
def KeysFrom (made : MadeKeys) (gitDir : Location) (fs : FileSystem) : Prop :=
  ∀ keyName, LegalKeyName keyName → ∀ bytes, fs.find (keyLocation gitDir keyName) = some (.file bytes) →
    Fits made keyName bytes

section
variable {made made' : MadeKeys} {keyFile : KeyFile} {keyName : Option Bytes} {bytes : Bytes}

theorem KeyFile.From.mono (h : keyFile.From made) (hle : made ≤ made') : keyFile.From made' :=
  fun version key hget => hle _ (h version key hget)

theorem Genuine.mono (h : Genuine made bytes) (hle : made ≤ made') : Genuine made' bytes :=
  fun keyFile hload => (h keyFile hload).mono hle

theorem KeysFrom.mono {fs : FileSystem} (h : KeysFrom made gitDir fs) (hle : made ≤ made') :
    KeysFrom made' gitDir fs := by
  intro keyName hn bytes hfile keyFile hload
  obtain ⟨hname, hfrom⟩ := h keyName hn bytes hfile keyFile hload
  exact ⟨hname, hfrom.mono hle⟩

theorem fits_nil : Fits made keyName [] := fun keyFile hload => by cases hload

theorem KeyFile.get_newest {n : Nat} {version : UInt32} {key : Entry} (h : (keyFile.newest n).get version = some key) :
    keyFile.get version = some key :=
  DescMap.find_eq_some.mpr (List.mem_of_mem_take (DescMap.find_eq_some.mp h))

/-- A first part of a key file that loads has the name of the whole and some of its keys. -/
theorem KeyFile.From.fits (h : keyFile.From made) (hs : keyFile.Storable) (hb : bytes <+: keyFile.store) :
    Fits made keyFile.getKeyName bytes := by
  intro part hload
  have hlen : keyFile.keyName.length < 2 ^ 32 := by
    rcases hs with hnil | ⟨-, hle⟩
    · rw [hnil]
      decide
    · omega
  obtain ⟨hmalformed, hcut⟩ := KeyFile.load_cut_off hlen hb
  have hnot : ¬ KeyFile.loadBytes bytes = .error .malformed := by simp [hload]
  obtain ⟨-, n, hn⟩ := not_not.mp (mt hmalformed.mpr hnot)
  rw [hcut n hs hn] at hload
  cases hload
  exact ⟨rfl, fun version key hget => h version key (KeyFile.get_newest hget)⟩

theorem Fits.genuine (h : Fits made keyName bytes) : Genuine made bytes := fun keyFile hload => (h keyFile hload).2

end

/-! ### Changes of the tree -/

/-- The git directory is found, and the keys in their places were made for their names. -/
structure KeysKept (env : Env) (gitDir : Location) (made : MadeKeys) (r : Repo) : Prop where
  located : Located env gitDir r
  keys : KeysFrom made gitDir r.fs

section
variable {made : MadeKeys} {r : Repo} {fs : FileSystem} {path : Bytes}

theorem KeysKept.mono (h : KeysKept env gitDir made r) {made' : MadeKeys} (hle : made ≤ made') :
    KeysKept env gitDir made' r :=
  ⟨h.located, h.keys.mono hle⟩

/-- The program keeps the keys, however it ends. -/
abbrev KeepsKeys (env : Env) (gitDir : Location) (made : MadeKeys) (m : Action α) : Prop :=
  Preserves (fun s => KeysKept env gitDir made s.1) m

theorem ReadsOnly.keepsKeys {m : Action α} (h : ReadsOnly m) : KeepsKeys env gitDir made m :=
  h.triple (KeysKept env gitDir made)

theorem Quiet.keepsKeys {m : Action α} (h : Quiet m) : KeepsKeys env gitDir made m := h.readsOnly.keepsKeys

theorem KeysKept.change (h : KeysKept env gitDir made r) (hdirs : r.fs.DirsIn fs)
    (hfiles : ∀ keyName, LegalKeyName keyName → ∀ bytes, fs.find (keyLocation gitDir keyName) = some (.file bytes) →
      r.fs.find (keyLocation gitDir keyName) = some (.file bytes) ∨ Fits made keyName bytes) :
    KeysKept env gitDir made { r with fs } := by
  refine ⟨h.located.mono hdirs, fun keyName hn bytes hfile => ?_⟩
  rcases hfiles keyName hn bytes hfile with hbefore | hfits
  · exact h.keys keyName hn bytes hbefore
  · exact hfits

theorem KeysKept.mkdir (h : KeysKept env gitDir made r) (hmkdir : r.fs.mkdir env.cwd path = .ok fs) :
    KeysKept env gitDir made { r with fs } := by
  have hchanges := mkdir_changesOnly hmkdir fun _ => False
  exact h.change hchanges.dirs fun keyName _ bytes hfile => .inl ((hchanges.files _ id bytes).mp hfile)

theorem KeysKept.unlink (h : KeysKept env gitDir made r) (hunlink : r.fs.unlink env.cwd path = .ok fs) :
    KeysKept env gitDir made { r with fs } := by
  obtain ⟨loc, -, hchanges, hgone⟩ := unlink_changesOnly hunlink
  refine h.change hchanges.dirs fun keyName _ bytes hfile => .inl ?_
  by_cases hloc : keyLocation gitDir keyName = loc
  · rw [hloc, hgone] at hfile
    cases hfile
  · exact (hchanges.files _ hloc bytes).mp hfile

/-- A file may be written that is not in the place of a key. -/
theorem KeysKept.writeElsewhere (h : KeysKept env gitDir made r) {edit : Bytes → Bytes}
    (hplace : ∀ keyName, LegalKeyName keyName → r.fs.resolve env.cwd path ≠ .ok (keyLocation gitDir keyName))
    (hwrite : r.fs.writeFile env.cwd path edit = .ok fs) : KeysKept env gitDir made { r with fs } := by
  obtain ⟨loc, bytes, hresolve, hchanges, -⟩ := writeFile_changesOnly hwrite
  refine h.change hchanges.dirs fun keyName hn bytes hfile => .inl ?_
  refine (hchanges.files _ ?_ bytes).mp hfile
  rintro rfl
  exact hplace keyName hn hresolve

variable {keyName : Option Bytes}

theorem KeysKept.fits_contents (h : KeysKept env gitDir made r) (hn : LegalKeyName keyName) :
    Fits made keyName (r.fs.contents (keyLocation gitDir keyName)) := by
  unfold contents
  split
  · exact h.keys keyName hn _ ‹_›
  · exact fits_nil

/-- The file in the place of a key may be written with what fits there. -/
theorem KeysKept.writeKey (h : KeysKept env gitDir made r) (hn : LegalKeyName keyName) {edit : Bytes → Bytes}
    (hfits : Fits made keyName (edit (r.fs.contents (keyLocation gitDir keyName))))
    (hwrite : r.fs.writeFile env.cwd (internalKeyPath env keyName) edit = .ok fs) :
    KeysKept env gitDir made { r with fs } := by
  obtain ⟨name, loc, hresolve, hnodir, hdiffers⟩ := writeFile_ok hwrite
  have hloc : name :: loc = keyLocation gitDir keyName := h.located.eq_keyLocation hn.isName hresolve
  rw [hloc] at hnodir hdiffers
  refine h.change (hdiffers.dirsIn hnodir) fun other ho bytes hfile => ?_
  by_cases hother : keyLocation gitDir other = keyLocation gitDir keyName
  · right
    obtain rfl : other = keyName := ho.eq_of_getD hn (List.cons.inj hother).1
    rw [hdiffers.at_self] at hfile
    cases hfile
    exact hfits
  · rw [hdiffers.of_ne hother] at hfile
    exact .inl hfile

end

/-! ### Functions that install and remove keys -/

section
variable {made : MadeKeys} {keyName : Option Bytes} {keyFile : KeyFile}

theorem mkdirParent_keepsKeys (path : Bytes) : KeepsKeys env gitDir made (mkdirParent env path) :=
  mkdirParent_preserves (fun _ _ _ hs hm => hs.mkdir hm) path

theorem removeFile_keepsKeys (path : Bytes) : KeepsKeys env gitDir made (removeFile env path) :=
  removeFile_preserves fun _ _ hs hu => hs.unlink hu

/-- At each moment the place of the key holds what was there before or a first part of the new file. -/
theorem storeToFile_keepsKeys (hn : LegalKeyName keyName)
    (hfits : ∀ bytes, bytes <+: keyFile.store → Fits made keyName bytes) :
    KeepsKeys env gitDir made (storeToFile env keyFile (internalKeyPath env keyName)) := by
  have hcreate (edit : Bytes → Bytes)
      (hedit : ∀ r, KeysKept env gitDir made r → Fits made keyName (edit (r.fs.contents (keyLocation gitDir keyName)))) :
      KeepsKeys env gitDir made (syscall env (.create (internalKeyPath env keyName)) fun fs =>
        (fs.writeFile env.cwd (internalKeyPath env keyName) edit).map ((), ·)) :=
    syscall_edit_preserves (fun _ => rfl) fun s fs hs hw => hs.writeKey hn (hedit s.1 hs) hw
  have hempty : Returns (fun _ => True) (syscall env (.create (internalKeyPath env keyName)) fun fs =>
      (fs.writeFile env.cwd (internalKeyPath env keyName) fun _ => []).map ((), ·))
      fun res r => res = .ok () → r.fs.readFile env.cwd (internalKeyPath env keyName) = .ok [] := by
    refine syscall_edit_returns (by simp) (by simp) fun r fs _ hw _ => ?_
    obtain ⟨_, hread, -⟩ := readFile_of_writeFile hw
    exact hread
  refine Maintains.bind (.bind (hcreate id fun r hr => hr.fits_contents hn) fun res => ?_) fun _ => ?_
  · split
    · exact .pure _
    · exact .throw _
  · refine Triple.bind (((hcreate (fun _ => []) fun _ _ => fits_nil).conj hempty).weaken (fun _ hw => ⟨hw, trivial⟩)
      (fun _ _ => id) fun _ _ he => he.1) fun res => ?_
    split
    · exact .pure fun w hw => hw.1
    · rintro w ⟨hkept, hread⟩
      obtain ⟨loc, hresolve, hfile⟩ := readFile_ok.mp (hread rfl)
      obtain rfl := hkept.located.eq_keyLocation hn.isName hresolve
      have hcontents : w.fs.contents (keyLocation gitDir keyName) = [] := by rw [contents, hfile]
      unfold writeContents
      dsimp only
      split
      · rename_i hs
        split at hs
        · rename_i fs hwrite
          cases hs
          refine KeysKept.writeKey (r := w.toRepo) hkept hn ?_ hwrite
          rw [hcontents, List.nil_append]
          apply hfits
          split_ifs
          · exact List.take_prefix _ _
          · exact List.prefix_rfl
        · cases hs
          exact hkept
      · rename_i hs
        split at hs <;> cases hs

theorem installKeyFile_keepsKeys (hn : LegalKeyName keyName)
    (hfits : ∀ bytes, bytes <+: keyFile.store → Fits made keyName bytes) :
    KeepsKeys env gitDir made (installKeyFile env keyFile (internalKeyPath env keyName)) :=
  .bind (mkdirParent_keepsKeys _) fun _ => .bind (storeToFile_keepsKeys hn hfits) fun _ =>
    .ite (fun _ => .pure _) fun _ => .bind (logLines_quiet _).keepsKeys fun _ => .pure _

theorem gitConfig_keepsKeys (name value : Bytes) : KeepsKeys env gitDir made (gitConfig env name value) :=
  .bind (execCommand_preserves (I := fun s => KeysKept env gitDir made s.1) (fun _ => rfl)
    fun _ hw => ⟨hw.located, hw.keys⟩) fun _ => (requireSuccess_quiet _ _).keepsKeys

theorem configureGitFilters_keepsKeys (keyName : Option Bytes) :
    KeepsKeys env gitDir made (configureGitFilters env keyName) := by
  rw [configureGitFilters_eq]
  exact .forM fun p _ => gitConfig_keepsKeys _ _

theorem gitDeconfig_keepsKeys (name : Bytes) : KeepsKeys env gitDir made (gitDeconfig env name) := by
  refine .bind (execCommand_preserves (I := fun s => KeysKept env gitDir made s.1) (fun _ => rfl) fun w hw => ?_)
    fun _ => (requireSuccess_quiet _ _).keepsKeys
  simp only [Command.run]
  split_ifs
  · exact ⟨hw.located, hw.keys⟩
  · exact hw

theorem deconfigureGitFilters_keepsKeys (keyName : Option Bytes) :
    KeepsKeys env gitDir made (deconfigureGitFilters env keyName) := by
  have hdiff : KeepsKeys env gitDir made (do
      if ← gitHasConfig env (str "diff." ++ attributeName keyName ++ str ".textconv") then
        gitDeconfig env (str "diff." ++ attributeName keyName)) :=
    .bind (gitHasConfig_quiet _).keepsKeys fun _ => .ite (fun _ => gitDeconfig_keepsKeys _) fun _ => .pure _
  exact .bind (gitHasAnyConfig_quiet _).keepsKeys fun _ =>
    .ite (fun _ => .bind (gitDeconfig_keepsKeys _) fun _ => hdiff) fun _ => hdiff

theorem checkOutFiles_keepsKeys (files failure : List Bytes) :
    KeepsKeys env gitDir made (checkOutFiles env files failure) :=
  (checkOutFiles_readsOnly files failure).keepsKeys

theorem installKeyFiles_keepsKeys {keyFiles : List KeyFile}
    (h : ∀ keyFile ∈ keyFiles, keyFile.Storable ∧ keyFile.From made) :
    KeepsKeys env gitDir made (installKeyFiles env keyFiles) := by
  induction keyFiles with
  | nil => exact .pure _
  | cons keyFile keyFiles ih =>
    obtain ⟨⟨hs, hfrom⟩, hrest⟩ := List.forall_mem_cons.mp h
    have hn := KeyFile.legalKeyName_of_storable hs
    refine Triple.bind (getInternalKeyPath_preserves (fun s => KeysKept env gitDir made s.1) _) fun path => .assuming ?_
    rintro rfl
    refine Maintains.bind (installKeyFile_keepsKeys hn fun bytes hb => hfrom.fits hs hb) fun ok =>
      .ite (fun _ => .pure _) fun _ => .bind (configureGitFilters_keepsKeys _) fun _ =>
        .bind (getEncryptedFiles_quiet _).keepsKeys fun _ => .bind (ih hrest) fun rest => ?_
    split
    · exact .pure _
    · exact .pure _

theorem lockKey_keepsKeys (keyName : Option Bytes) (path : Bytes) :
    KeepsKeys env gitDir made (lockKey env keyName path) :=
  .bind (removeFile_keepsKeys _) fun _ => .bind (deconfigureGitFilters_keepsKeys _) fun _ =>
    (getEncryptedFiles_quiet _).keepsKeys

theorem lockKeys_keepsKeys (dirents : List Bytes) : KeepsKeys env gitDir made (lockKeys env dirents) := by
  induction dirents with
  | nil => exact .pure _
  | cons dirent dirents ih =>
    exact .bind (getInternalKeyPath_quiet _).keepsKeys fun _ => .bind (lockKey_keepsKeys _ _) fun _ =>
      .bind ih fun _ => .pure _

theorem lockGivenKey_keepsKeys (keyName : Option Bytes) : KeepsKeys env gitDir made (lockGivenKey env keyName) := by
  refine .bind (getInternalKeyPath_quiet _).keepsKeys fun _ => .bind (access_quiet _).keepsKeys fun res => ?_
  split
  · exact .bind (logLines_quiet _).keepsKeys fun _ => .pure _
  · exact .bind (lockKey_keepsKeys _ _) fun _ => .pure _

theorem lock_keepsKeys (args : List Bytes) : KeepsKeys env gitDir made (lock env args) := by
  have hleave (status : Nat) (lines : List Bytes) : KeepsKeys env gitDir made (leave status lines) :=
    (leave_quiet _ _).keepsKeys
  unfold lock
  split
  · exact .throw _
  · rename_i vars rest hparse
    refine .ite (fun _ => hleave _ _) fun _ => .ite (fun _ => hleave _ _) fun _ =>
      .bind getGitStatus_quiet.keepsKeys fun _ => .ite (fun _ => hleave _ _) fun _ => .bind ?_ fun files => ?_
    · refine .ite (fun _ => ?_) fun _ => lockGivenKey_keepsKeys _
      exact .bind getInternalKeysPath_quiet.keepsKeys fun _ => .bind (getDirectoryContents_quiet _).keepsKeys
        fun _ => .bind (lockKeys_keepsKeys _) fun _ => .pure _
    · split
      · exact .pure _
      · exact checkOutFiles_keepsKeys _ _

end

end GitCrypt
