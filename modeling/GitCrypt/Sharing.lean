import GitCrypt.KeyRoundTrip
import GitCrypt.Consistency

/-! Sharing a key with GPG users: what `encrypt_repo_key` stores, and how `decrypt_repo_key`
finds it again. -/
namespace GitCrypt
open Iostream Posix

/-! ### Storing -/

section
variable {env : Env} {keyFileData : Bytes} {collabKeys : List (Bytes × Bool)}

/-- What gpg makes of the data for a collaborator. -/
def IsCiphertext (env : Env) (keyFileData : Bytes) (collab : Bytes × Bool) (bytes : Bytes) : Prop :=
  env.gpgEncrypt (str "0x" ++ collab.1) collab.2 keyFileData = some bytes

/-- Nothing was changed, and the new files hold the data for some collaborator. -/
structure SharedFrom (env : Env) (keyFileData : Bytes) (collabKeys : List (Bytes × Bool)) (r₀ r : Repo) :
    Prop where
  grows : r₀.fs.Extends r.fs
  fresh : ∀ loc bytes, r.fs.find loc = some (.file bytes) →
    r₀.fs.find loc = some (.file bytes) ∨ ∃ collab ∈ collabKeys, IsCiphertext env keyFileData collab bytes

/-- The path leads to a new file with the data for a collaborator. -/
def Stored (env : Env) (keyFileData : Bytes) (collab : Bytes × Bool) (path : Bytes) (r₀ r : Repo) : Prop :=
  ∃ loc bytes, r.fs.resolve env.cwd path = .ok loc ∧ r₀.fs.find loc = none ∧
    r.fs.find loc = some (.file bytes) ∧ IsCiphertext env keyFileData collab bytes

theorem SharedFrom.refl (r : Repo) : SharedFrom env keyFileData collabKeys r r :=
  ⟨fun _ _ => id, fun _ _ => .inl⟩

theorem SharedFrom.trans {r₀ r₁ r₂ : Repo} (h : SharedFrom env keyFileData collabKeys r₀ r₁)
    (h' : SharedFrom env keyFileData collabKeys r₁ r₂) : SharedFrom env keyFileData collabKeys r₀ r₂ :=
  ⟨h.grows.trans h'.grows, fun loc bytes hf => (h'.fresh loc bytes hf).elim (h.fresh loc bytes) .inr⟩

theorem Stored.mono {collab : Bytes × Bool} {path : Bytes} {r₀ r₁ r₂ r₃ : Repo}
    (h : Stored env keyFileData collab path r₁ r₂) (h₀ : r₀.fs.Extends r₁.fs) (h₂ : r₂.fs.Extends r₃.fs) :
    Stored env keyFileData collab path r₀ r₃ := by
  obtain ⟨loc, bytes, hr, hn, hf, hc⟩ := h
  exact ⟨loc, bytes, FileSystem.resolve_of_dirsIn h₂.dirsIn hr, h₀.find_none hn, h₂ _ _ hf, hc⟩

theorem mkdirParent_shared (r₀ : Repo) (path : Bytes) :
    Returns (SharedFrom env keyFileData collabKeys r₀) (mkdirParent env path)
      fun _ => SharedFrom env keyFileData collabKeys r₀ := by
  refine mkdirParent_returns (fun r dir fs hr hm => hr.trans ?_) path
  obtain ⟨name, loc, -, hn, hdiff⟩ := FileSystem.mkdir_ok hm
  have hfiles := (FileSystem.mkdir_changesOnly hm fun _ => False).files
  exact ⟨hdiff.extends hn, fun loc' bytes hf => .inl ((hfiles loc' id bytes).mp hf)⟩

/-- gpg writes a file that was not there. -/
theorem gpgEncryptToFile_shared {collab : Bytes × Bool} (hmem : collab ∈ collabKeys) (r₀ : Repo)
    (path : Bytes) :
    Returns (· = r₀) (gpgEncryptToFile env path collab.1 collab.2 keyFileData) fun _ r =>
      SharedFrom env keyFileData collabKeys r₀ r ∧ Stored env keyFileData collab path r₀ r := by
  refine gpgGetExecutable_quiet.andThen fun program => ?_
  refine .bind (R := fun out r => out.1 = 0 → SharedFrom env keyFileData collabKeys r₀ r ∧
    Stored env keyFileData collab path r₀ r) (execCommand_returns (by simp) ?_) ?_
  · rintro w rfl
    simp only [Command.run]
    split
    · rename_i e bytes hstat hgpg
      split
      · rename_i fs hw
        obtain ⟨name, loc, hr, -, hdiff⟩ := FileSystem.writeFile_ok hw
        have hn : w.fs.find (name :: loc) = none := by
          cases hf : w.fs.find (name :: loc) with
          | none => rfl
          | some node => rw [FileSystem.stat_ok.mpr ⟨_, hr, hf⟩] at hstat; cases hstat
        have hext := hdiff.extends hn
        refine fun _ => ⟨⟨hext, fun loc' bytes' hf => ?_⟩, name :: loc, bytes, ?_, hn, hdiff.at_self, hgpg⟩
        · change fs.find loc' = _ at hf
          rw [hdiff loc'] at hf
          split_ifs at hf
          · cases hf
            exact .inr ⟨collab, hmem, hgpg⟩
          · exact .inl hf
        · exact FileSystem.resolve_of_dirsIn hext.dirsIn hr
      · simp
    · simp
  · rintro ⟨status, output⟩
    exact (requireSuccess_returns _ _ _).post fun _ r hr => hr.1 hr.2

/-- The files `encrypt_repo_key` reports are new and hold the data for their collaborators. -/
theorem encryptRepoKeyTo_shared (keyName : Option Bytes) (keyVersion : UInt32) (keysPath : Bytes)
    {collabs : List (Bytes × Bool)} (hsub : ∀ collab ∈ collabs, collab ∈ collabKeys) (r₀ : Repo) :
    Returns (· = r₀) (encryptRepoKeyTo env keyName keyVersion keyFileData keysPath collabs) fun newFiles r =>
      SharedFrom env keyFileData collabKeys r₀ r ∧ ∀ path ∈ newFiles, ∃ collab ∈ collabKeys,
        path = repoKeyPath keysPath keyName keyVersion collab.1 ∧
          Stored env keyFileData collab path r₀ r := by
  induction collabs generalizing r₀ with
  | nil =>
    refine .pure ?_
    rintro r rfl
    exact ⟨.refl r, by simp⟩
  | cons collab collabs ih =>
    rw [List.forall_mem_cons] at hsub
    refine (access_quiet _).andThen fun res => ?_
    split
    · exact ih hsub.2 r₀
    · refine .bind (R := fun _ => SharedFrom env keyFileData collabKeys r₀)
        ((mkdirParent_shared r₀ _).start (.refl r₀)) fun _ => ?_
      refine .of_start fun r₁ h₁ => .bind (gpgEncryptToFile_shared hsub.1 r₁ _) fun _ => ?_
      refine .of_start fun r₂ ⟨h₂, hstored⟩ => .bind (ih hsub.2 r₂) fun newFiles => .pure ?_
      rintro r ⟨h₃, hnew⟩
      refine ⟨(h₁.trans h₂).trans h₃, List.forall_mem_cons.mpr ⟨?_, fun path hp => ?_⟩⟩
      · exact ⟨collab, hsub.1, rfl, hstored.mono h₁.grows h₃.grows⟩
      · obtain ⟨c, hc, hpath, hs⟩ := hnew path hp
        exact ⟨c, hc, hpath, hs.mono (h₁.trans h₂).grows fun _ _ => id⟩

end

/-! ### Finding -/

/-- What gpg decrypts from the file a path leads to. -/
def decryptedContents (env : Env) (repo : Repo) (path : Bytes) : Option Bytes :=
  (repo.fs.readFile env.cwd path).toOption.bind env.gpgDecrypt

/-- The data is a key file with an entry of the version, under the name. -/
def HoldsKey (data : Bytes) (keyName : Option Bytes) (keyVersion : UInt32) (key : Entry) : Prop :=
  ∃ keyFile, KeyFile.loadBytes data = .ok keyFile ∧ keyFile.get keyVersion = some key ∧
    keyFile.getKeyName = keyName

theorem holdsKey_of_load {data : Bytes} {keyFile : KeyFile} (h : KeyFile.loadBytes data = .ok keyFile)
    {keyName : Option Bytes} {keyVersion : UInt32} {key : Entry} :
    HoldsKey data keyName keyVersion key ↔ keyFile.get keyVersion = some key ∧ keyFile.getKeyName = keyName := by
  constructor
  · rintro ⟨kf, hl, hkey⟩
    obtain rfl := Except.ok.inj (h.symm.trans hl)
    exact hkey
  · exact fun hkey => ⟨keyFile, h, hkey⟩

theorem HoldsKey.unique {data : Bytes} {keyName : Option Bytes} {keyVersion : UInt32} {key key' : Entry}
    (h : HoldsKey data keyName keyVersion key) (h' : HoldsKey data keyName keyVersion key') : key = key' := by
  obtain ⟨kf, hl, hg, -⟩ := h
  exact Option.some.inj (hg.symm.trans ((holdsKey_of_load hl).mp h').1)

section
variable {env : Env} {r : Repo} {E : Exception → World → Prop}

theorem access_reliable (h : Reliable env) (path : Bytes) :
    Triple (fun w => w.toRepo = r) (access env path)
      (fun res w => w.toRepo = r ∧ res = (r.fs.stat env.cwd path).map fun _ => ()) E := by
  rintro w rfl
  unfold access syscall
  simp only [h w.ops, Bool.false_eq_true, if_false]
  cases hs : w.fs.stat env.cwd path <;> exact ⟨rfl, rfl⟩

theorem gpgDecryptFromFile_reliable (h : Reliable env) (path : Bytes) :
    Triple (fun w => w.toRepo = r) (gpgDecryptFromFile env path)
      (fun s w => w.toRepo = r ∧ ∃ data, decryptedContents env r path = some data ∧ s = outputStream data)
      (fun e w => w.toRepo = r ∧ decryptedContents env r path = none ∧ ∃ message, e = .gpgError message) := by
  refine .bind (R := fun _ w => w.toRepo = r) ?_ fun program => ?_
  · refine .tryCatch (R := fun _ w => w.toRepo = r) ?_ fun e => .pure fun _ => id
    exact ((getGitConfig_quiet _).readsOnly.triple (· = r)).post fun _ _ => id
  refine .bind (R := fun out w => w.toRepo = r ∧ if out.1 = 0 then decryptedContents env r path = some out.2
    else decryptedContents env r path = none) ?_ ?_
  · rintro w rfl
    unfold execCommand decryptedContents
    simp only [h w.ops, Bool.false_eq_true, if_false, Command.run]
    cases hf : w.fs.readFile env.cwd path with
    | error e => exact ⟨rfl, rfl⟩
    | ok bytes =>
      cases hd : env.gpgDecrypt bytes with
      | none =>
        simp only [hd]
        exact ⟨rfl, hd⟩
      | some data =>
        simp only [hd]
        exact ⟨rfl, hd⟩
  · rintro ⟨status, output⟩
    refine .bind (R := fun _ w => w.toRepo = r ∧ decryptedContents env r path = some output)
      (.ite (fun hs => .pure ?_) fun hs => .throw ?_) fun _ => .pure ?_
    · rintro w ⟨hw, hout⟩
      exact ⟨hw, by simpa [of_decide_eq_true hs] using hout⟩
    · rintro w ⟨hw, hout⟩
      exact ⟨hw, by simpa [show status ≠ 0 by simpa [successfulExit] using hs] using hout, _, rfl⟩
    · rintro w ⟨hw, hout⟩
      exact ⟨hw, output, hout, rfl⟩

theorem tryGpgDecrypt_reliable (h : Reliable env) (path : Bytes) :
    Triple (fun w => w.toRepo = r) (tryGpgDecrypt env path)
      (fun res w => w.toRepo = r ∧ match decryptedContents env r path with
        | some data => res = .ok (outputStream data)
        | none => ∃ e, res = .error e) E := by
  refine .tryCatch (.bind (gpgDecryptFromFile_reliable h path) fun s => .pure ?_) fun e => ?_
  · rintro w ⟨hw, data, hd, rfl⟩
    rw [hd]
    exact ⟨hw, rfl⟩
  · rintro w ⟨hw, hd, message, rfl⟩
    rw [hd]
    exact ⟨hw, _, rfl⟩

def keyException : KeyError → Exception
  | .malformed => .malformed
  | .incompatible => .incompatible

/-- The entry `decrypt_repo_key` takes from decrypted contents, or what it throws. -/
def repoKeyEntry (keyName : Option Bytes) (keyVersion : UInt32) (contents : Bytes) : Except Exception Entry :=
  match KeyFile.loadBytes contents with
  | .error e => .error (keyException e)
  | .ok thisVersionKeyFile =>
    match thisVersionKeyFile.get keyVersion with
    | none => .error (.error (str missingVersion))
    | some thisVersionEntry =>
      if keyName = thisVersionKeyFile.getKeyName then .ok thisVersionEntry else .error (.error (str wrongName))

theorem repoKeyEntry_ok {keyName : Option Bytes} {keyVersion : UInt32} {contents : Bytes} {key : Entry} :
    repoKeyEntry keyName keyVersion contents = .ok key ↔ HoldsKey contents keyName keyVersion key := by
  unfold repoKeyEntry
  cases hload : KeyFile.loadBytes contents with
  | error e => simp [HoldsKey, hload]
  | ok keyFile =>
    rw [holdsKey_of_load hload]
    cases hget : keyFile.get keyVersion with
    | none => simp [hget]
    | some entry =>
      by_cases hname : keyName = keyFile.getKeyName
      · simp [hget, hname]
      · simp [hget, hname, Ne.symm hname]

/-- Contents that are not accepted are not a failure of gpg. -/
theorem repoKeyEntry_error {keyName : Option Bytes} {keyVersion : UInt32} {contents message : Bytes} :
    repoKeyEntry keyName keyVersion contents ≠ .error (.gpgError message) := by
  unfold repoKeyEntry
  cases KeyFile.loadBytes contents with
  | error e => cases e <;> simp [keyException]
  | ok keyFile =>
    cases hget : keyFile.get keyVersion with
    | none => simp [hget]
    | some entry => by_cases hname : keyName = keyFile.getKeyName <;> simp [hget, hname]

/-- Loading from a subprocess is loading its output. -/
private theorem loaded_run (contents : Bytes) (w : World) :
    loaded (KeyFile.empty.load (outputStream contents)) w = ((KeyFile.loadBytes contents).mapError keyException, w) := by
  by_cases hnil : contents = []
  · subst hnil
    rfl
  · have hstream : outputStream contents = .ofBytes contents := by simp [outputStream, IStream.ofBytes, hnil]
    rw [hstream, KeyFile.loadBytes]
    rcases KeyFile.empty.load (.ofBytes contents) with ⟨keyFile, e | rest⟩
    · cases e <;> rfl
    · rfl

private theorem acceptRepoKey_run (keyFile : KeyFile) (keyName : Option Bytes) (keyVersion : UInt32) (contents : Bytes)
    (w : World) : acceptRepoKey keyFile keyName keyVersion (outputStream contents) w =
      ((repoKeyEntry keyName keyVersion contents).map fun key => (keyFile.setKeyName keyName).add key, w) := by
  unfold acceptRepoKey repoKeyEntry
  have hrun := loaded_run contents w
  cases hload : KeyFile.loadBytes contents with
  | error e =>
    rw [hload] at hrun
    rw [Prog.bind_of_error hrun]
    rfl
  | ok thisVersionKeyFile =>
    rw [hload] at hrun
    rw [Prog.bind_of_ok hrun]
    cases hget : thisVersionKeyFile.get keyVersion with
    | none =>
      simp only [hget]
      rfl
    | some key =>
      by_cases hname : keyName = thisVersionKeyFile.getKeyName
      · simp only [hget, sameKeyName, hname]
        rfl
      · simp [hget, sameKeyName, hname]
        rfl

theorem acceptRepoKey_entry (keyFile : KeyFile) (keyName : Option Bytes) (keyVersion : UInt32) (contents : Bytes)
    {P : World → Prop} :
    Triple P (acceptRepoKey keyFile keyName keyVersion (outputStream contents))
      (fun keyFile' w => P w ∧ ∃ key, repoKeyEntry keyName keyVersion contents = .ok key ∧
        keyFile' = (keyFile.setKeyName keyName).add key)
      fun e w => P w ∧ repoKeyEntry keyName keyVersion contents = .error e := by
  intro w hw
  rw [acceptRepoKey_run]
  cases repoKeyEntry keyName keyVersion contents with
  | error e => exact ⟨hw, rfl⟩
  | ok key => exact ⟨hw, key, rfl, rfl⟩

theorem acceptRepoKey_spec (keyFile : KeyFile) (keyName : Option Bytes) (keyVersion : UInt32) (data : Bytes) :
    Triple (fun _ => True) (acceptRepoKey keyFile keyName keyVersion (outputStream data))
      (fun keyFile' _ => ∃ key, HoldsKey data keyName keyVersion key ∧
        keyFile' = (keyFile.setKeyName keyName).add key)
      (fun _ _ => ∀ key, ¬ HoldsKey data keyName keyVersion key) := by
  refine (acceptRepoKey_entry keyFile keyName keyVersion data).weaken (fun _ => id) ?_ ?_
  · rintro keyFile' w ⟨-, key, hentry, rfl⟩
    exact ⟨key, repoKeyEntry_ok.mp hentry, rfl⟩
  · rintro e w ⟨-, hentry⟩ key hkey
    rw [repoKeyEntry_ok.mpr hkey] at hentry
    cases hentry

/-- What gpg decrypts from is there. -/
private theorem stat_of_decryptedContents {path data : Bytes} (hd : decryptedContents env r path = some data) :
    (r.fs.stat env.cwd path).map (fun _ => ()) = .ok () := by
  rw [decryptedContents, FileSystem.readFile] at hd
  split at hd
  · cases hd
  · rename_i hs
    rw [hs]
    rfl
  · rename_i hs
    rw [hs]
    rfl

/-- A file that gpg decrypts decides, whatever comes after it. -/
theorem decryptRepoKeyWith_head (h : Reliable env) (keyFile : KeyFile) (keyName : Option Bytes)
    (keyVersion : UInt32) (keysPath : Bytes) (gpgError : Option Exception) {seckey data : Bytes}
    (secretKeys : List Bytes)
    (hd : decryptedContents env r (repoKeyPath keysPath keyName keyVersion seckey) = some data) :
    Triple (fun w => w.toRepo = r)
      (decryptRepoKeyWith env keyFile keyName keyVersion keysPath gpgError (seckey :: secretKeys))
      (fun res _ => ∃ key, HoldsKey data keyName keyVersion key ∧
        res = some ((keyFile.setKeyName keyName).add key))
      (fun _ _ => ∀ key, ¬ HoldsKey data keyName keyVersion key) := by
  have htry := tryGpgDecrypt_reliable (r := r) (E := fun _ _ => ∀ key, ¬ HoldsKey data keyName keyVersion key)
    h (repoKeyPath keysPath keyName keyVersion seckey)
  simp only [hd] at htry
  refine .bind (access_reliable h _) fun res => ?_
  rw [stat_of_decryptedContents hd]
  split
  · rintro w ⟨-, hres⟩
    cases hres
  · refine .bind (htry.pre fun w hw => hw.1) fun res => ?_
    split
    · rintro w ⟨-, hres⟩
      cases hres
    · rename_i contents
      refine .bind (R := fun kf _ => ∃ key, HoldsKey data keyName keyVersion key ∧
        kf = (keyFile.setKeyName keyName).add key) ?_ fun kf => .pure ?_
      · rintro w ⟨-, hres⟩
        cases hres
        exact acceptRepoKey_spec keyFile keyName keyVersion data w trivial
      · rintro w ⟨key, ha, rfl⟩
        exact ⟨key, ha, rfl⟩

/-- A fingerprint without a file that gpg decrypts is passed over. -/
private theorem decryptRepoKeyWith_skip (h : Reliable env) {keyFile : KeyFile} {keyName : Option Bytes}
    {keyVersion : UInt32} {keysPath : Bytes} {seckey : Bytes} {secretKeys : List Bytes}
    (hd : decryptedContents env r (repoKeyPath keysPath keyName keyVersion seckey) = none)
    {Q : Option KeyFile → World → Prop}
    (hrest : ∀ gpgError, Triple (fun w => w.toRepo = r)
      (decryptRepoKeyWith env keyFile keyName keyVersion keysPath gpgError secretKeys) Q E)
    (gpgError : Option Exception) :
    Triple (fun w => w.toRepo = r)
      (decryptRepoKeyWith env keyFile keyName keyVersion keysPath gpgError (seckey :: secretKeys)) Q E := by
  have htry := tryGpgDecrypt_reliable (r := r) (E := E) h (repoKeyPath keysPath keyName keyVersion seckey)
  simp only [hd] at htry
  refine .bind (access_reliable h _) fun res => ?_
  split
  · exact (hrest gpgError).pre fun w hw => hw.1
  · refine .bind (htry.pre fun w hw => hw.1) fun res => ?_
    split
    · exact (hrest _).pre fun w hw => hw.1
    · rintro w ⟨-, e, he⟩
      cases he

/-- When all files that gpg decrypts hold the key and there is one, the key is found. -/
private theorem decryptRepoKeyWith_finds (h : Reliable env) (keyFile : KeyFile) (keyName : Option Bytes)
    (keyVersion : UInt32) (keysPath : Bytes) {key : Entry} {secretKeys : List Bytes} {fingerprint : Bytes}
    (hall : ∀ seckey ∈ secretKeys, ∀ data,
      decryptedContents env r (repoKeyPath keysPath keyName keyVersion seckey) = some data →
      HoldsKey data keyName keyVersion key)
    (hmem : fingerprint ∈ secretKeys)
    (hf : (decryptedContents env r (repoKeyPath keysPath keyName keyVersion fingerprint)).isSome = true)
    (gpgError : Option Exception) :
    Triple (fun w => w.toRepo = r)
      (decryptRepoKeyWith env keyFile keyName keyVersion keysPath gpgError secretKeys)
      (fun res _ => res = some ((keyFile.setKeyName keyName).add key)) (fun _ _ => False) := by
  induction secretKeys generalizing gpgError with
  | nil => cases hmem
  | cons seckey secretKeys ih =>
    rw [List.forall_mem_cons] at hall
    cases hd : decryptedContents env r (repoKeyPath keysPath keyName keyVersion seckey) with
    | some data =>
      have ha := hall.1 data hd
      refine (decryptRepoKeyWith_head h keyFile keyName keyVersion keysPath gpgError secretKeys hd).weaken
        (fun _ => id) ?_ fun _ _ hno => hno key ha
      rintro res _ ⟨key', ha', rfl⟩
      rw [ha'.unique ha]
    | none =>
      have hne : fingerprint ≠ seckey := by
        rintro rfl
        rw [hd] at hf
        cases hf
      exact decryptRepoKeyWith_skip h hd (ih hall.2 ((List.mem_cons.mp hmem).resolve_left hne)) gpgError

end

/-! ### Round trip -/

/-- Where the file of a fingerprint lies below the directory of the keys. -/
def repoKeyLocation (keys : Location) (dirent : Bytes) (keyVersion : UInt32) (fingerprint : Bytes) :
    Location :=
  (fingerprint ++ str ".gpg") :: decimal keyVersion :: dirent :: keys

private theorem isName_decimal (n : UInt32) : IsName (decimal n) := by
  have hdigit (c : UInt8) (hc : c ∈ decimal n) : 48 ≤ c.toNat := by
    obtain ⟨d, hd, rfl⟩ := List.mem_map.mp hc
    have hd' := Nat.isDigit_of_mem_toDigits (by decide) (by decide) hd
    simp only [Char.isDigit, Bool.and_eq_true, decide_eq_true_eq, UInt32.le_iff_toNat_le] at hd'
    have h57 : d.toNat ≤ 57 := hd'.2
    have h48 : 48 ≤ d.toNat := hd'.1
    rw [UInt8.toNat_ofNat_of_lt' (lt_of_le_of_lt h57 (by decide))]
    exact h48
  refine ⟨?_, ?_, ?_, fun h => absurd (hdigit 47 h) (by decide)⟩
  · exact fun h => Nat.toDigits_ne_nil (List.map_eq_nil_iff.mp h)
  · exact fun h => absurd (hdigit 46 (by simp [h, dot])) (by decide)
  · exact fun h => absurd (hdigit 46 (by simp [h, dotDot])) (by decide)

private theorem isName_gpgFile {fingerprint : Bytes} (h : (47 : UInt8) ∉ fingerprint) :
    IsName (fingerprint ++ str ".gpg") := by
  have hlen : (fingerprint ++ str ".gpg").length = fingerprint.length + 4 := by simp [str]
  refine ⟨?_, ?_, ?_, ?_⟩
  · exact fun he => absurd (congrArg List.length he) (by rw [hlen]; simp)
  · exact fun he => absurd (congrArg List.length he) (by rw [hlen]; simp [dot])
  · exact fun he => absurd (congrArg List.length he) (by rw [hlen]; simp [dotDot])
  · rw [List.mem_append, not_or]
    exact ⟨h, by decide⟩

section
variable {env : Env} {r : Repo} {keysPath : Bytes} {keys : Location} {keyName : Option Bytes}
  {keyVersion : UInt32} {fingerprint : Bytes}

private theorem repoKeyPath_eq : repoKeyPath keysPath keyName keyVersion fingerprint =
    FileSystem.below keysPath
      [keyName.getD (str "default"), decimal keyVersion, fingerprint ++ str ".gpg"] := by
  simp only [repoKeyPath, FileSystem.below, List.flatMap_cons, List.flatMap_nil, List.append_nil,
    List.append_assoc]
  rfl

private theorem repoKeyPath_names (hn : IsName (keyName.getD (str "default")))
    (hs : (47 : UInt8) ∉ fingerprint) :
    ∀ c ∈ [keyName.getD (str "default"), decimal keyVersion, fingerprint ++ str ".gpg"], IsName c := by
  simp only [List.mem_cons, List.not_mem_nil, or_false]
  rintro c (rfl | rfl | rfl)
  · exact hn
  · exact isName_decimal _
  · exact isName_gpgFile hs

/-- What gpg decrypts under a path of the program is what it makes of the file there. -/
theorem decryptedContents_eq (hk : r.fs.resolve env.cwd keysPath = .ok keys)
    (hn : IsName (keyName.getD (str "default"))) (hs : (47 : UInt8) ∉ fingerprint) {data : Bytes} :
    decryptedContents env r (repoKeyPath keysPath keyName keyVersion fingerprint) = some data ↔
      ∃ bytes, r.fs.find (repoKeyLocation keys (keyName.getD (str "default")) keyVersion fingerprint) =
        some (.file bytes) ∧ env.gpgDecrypt bytes = some data := by
  rw [decryptedContents, Option.bind_eq_some_iff]
  refine exists_congr fun bytes => and_congr_left fun _ => ?_
  have hread : (r.fs.readFile env.cwd (repoKeyPath keysPath keyName keyVersion fingerprint)).toOption =
      some bytes ↔ r.fs.readFile env.cwd (repoKeyPath keysPath keyName keyVersion fingerprint) = .ok bytes := by
    cases r.fs.readFile env.cwd (repoKeyPath keysPath keyName keyVersion fingerprint) <;>
      simp [Except.toOption]
  rw [hread, FileSystem.readFile_ok, repoKeyPath_eq]
  constructor
  · rintro ⟨loc, hr, hf⟩
    rwa [FileSystem.eq_of_resolve_below hk (repoKeyPath_names hn hs) hr] at hf
  · intro hf
    exact ⟨_, FileSystem.resolve_below_of_find hk (repoKeyPath_names hn hs)
      (Option.isSome_iff_exists.mpr ⟨_, hf⟩), hf⟩

end

/-- In the directory of the key version, whatever gpg decrypts holds the key. -/
def PreviousAgree (env : Env) (keys : Location) (keyName : Option Bytes) (key : Entry) (r : Repo) : Prop :=
  ∀ fingerprint bytes data, (47 : UInt8) ∉ fingerprint →
    r.fs.find (repoKeyLocation keys (keyName.getD (str "default")) key.version fingerprint) =
      some (.file bytes) →
    env.gpgDecrypt bytes = some data → HoldsKey data keyName key.version key

/-- The file of a fingerprint lies in a directory from which `decrypt_repo_keys` takes a key
name, and with it every list of secret keys with the fingerprint gives exactly the key. -/
def FoundAndAccepted (env env' : Env) (keysPath keysPath' : Bytes) (keys : Location)
    (keyName : Option Bytes) (key : Entry) (fingerprint : Bytes) (r : Repo) : Prop :=
  ∃ dirent derived, keyNameOfDirent dirent = some derived ∧
    r.fs.resolve env.cwd (repoKeyPath keysPath keyName key.version fingerprint) =
      .ok (repoKeyLocation keys dirent key.version fingerprint) ∧
    ∀ secretKeys, fingerprint ∈ secretKeys → (∀ seckey ∈ secretKeys, (47 : UInt8) ∉ seckey) →
      ∀ (keyFile : KeyFile) (w : World), w.toRepo = r →
        (decryptRepoKey env' keyFile derived key.version secretKeys keysPath' w).1 =
          .ok (some ((keyFile.setKeyName derived).add key))

/-- The empty key name loads nothing: its path leads to a directory. -/
private theorem loadKey_nil_throws {env : Env} {w w' : World} {keyFile : KeyFile} :
    loadKey env (some []) none none w ≠ (.ok keyFile, w') := by
  have hthrows : Returns (fun _ => True) (loadKey env (some []) none none) fun _ _ => False := by
    refine .bind (getInternalKeyPath_returns _ _) fun path => .of_start fun r₀ ⟨_, hpath⟩ => ?_
    refine .bind (readFile_returns _ _) fun contents => ?_
    split
    · exact .raise _
    · rename_i bytes
      refine .of_start fun r ⟨_, hbytes⟩ => ?_
      have hnil : bytes = [] := by
        refine (hbytes bytes rfl).resolve_right ?_
        rintro ⟨loc, hr, hf⟩
        rw [hpath, internalKeyPath, Option.getD_some, List.append_nil] at hr
        rw [FileSystem.find_of_resolve_slash hr] at hf
        cases hf
      subst hnil
      exact .raise _
  exact fun h => hthrows.of_run trivial h

section
variable {env env' : Env} {keyName : Option Bytes} {key : Entry} {collabKeys : List (Bytes × Bool)}
  {keysPath keysPath' fingerprint : Bytes} {newFiles : List Bytes} {keys : Location} {w w' : World}

theorem holdsKey_repoKeyData (h : LegalKeyName keyName) (key : Entry) :
    HoldsKey (repoKeyData keyName key) keyName key.version key := by
  refine ⟨_, KeyFile.loadBytes_store ?_, KeyFile.get_add_self _ _, KeyFile.getKeyName_setKeyName_add _ h key⟩
  cases keyName with
  | none => exact .inl rfl
  | some name => exact KeyFile.storable_of_validKeyName (h name rfl)

/-- The stored file of a fingerprint. -/
private theorem stored_of_newFiles (henc : encryptRepoKey env keyName key collabKeys keysPath w = (.ok newFiles, w'))
    (hnew : repoKeyPath keysPath keyName key.version fingerprint ∈ newFiles) :
    SharedFrom env (repoKeyData keyName key) collabKeys w.toRepo w'.toRepo ∧ ∃ trusted,
      Stored env (repoKeyData keyName key) (fingerprint, trusted)
        (repoKeyPath keysPath keyName key.version fingerprint) w.toRepo w'.toRepo := by
  obtain ⟨hshared, hfiles⟩ := (encryptRepoKeyTo_shared keyName key.version keysPath
    (fun _ => id) w.toRepo).of_run rfl henc
  obtain ⟨⟨fpr, trusted⟩, -, hpath, hstored⟩ := hfiles _ hnew
  have hfpr : fingerprint = fpr := List.append_cancel_right (List.append_cancel_left hpath)
  exact ⟨hshared, trusted, hfpr ▸ hstored⟩

/-- A shared key whose file loads again has a legal name. -/
private theorem legalKeyName_of_holdsKey (hload : ∀ name, keyName = some name → name ≠ [])
    (hchars : ∀ name, keyName = some name → (0 : UInt8) ∉ name) {derived : Option Bytes} {key' : Entry}
    (h : HoldsKey (repoKeyData keyName key) derived key.version key') : LegalKeyName keyName := by
  obtain ⟨keyFile, hl, -⟩ := h
  intro name hname
  subst hname
  exact KeyFile.validKeyName_of_loadBytes_store (hchars name rfl) (hload name rfl) hl

/-- The parts of the round trip: `env` has stored the key, and `env'` looks for it. -/
structure RoundTrip (env env' : Env) (keyName : Option Bytes) (key : Entry)
    (collabKeys : List (Bytes × Bool)) (keysPath keysPath' fingerprint : Bytes) (keys : Location)
    (r r' : Repo) : Prop where
  cString : ∀ name, keyName = some name → (0 : UInt8) ∉ name
  loads : ∃ keyFile w w', loadKey env keyName none none w = (.ok keyFile, w')
  encrypted : ∃ newFiles w w', w.toRepo = r ∧ w'.toRepo = r' ∧
    encryptRepoKey env keyName key collabKeys keysPath w = (.ok newFiles, w') ∧
    repoKeyPath keysPath keyName key.version fingerprint ∈ newFiles
  noSlash : (47 : UInt8) ∉ fingerprint
  keysAt : r'.fs.resolve env.cwd keysPath = .ok keys
  keysAt' : r'.fs.resolve env'.cwd keysPath' = .ok keys
  reliable : Reliable env'
  decrypts : ∀ recipient trusted data bytes, env.gpgEncrypt recipient trusted data = some bytes →
    env'.gpgDecrypt bytes = none ∨ env'.gpgDecrypt bytes = some data
  decryptsOwn : ∀ trusted data bytes, env.gpgEncrypt (str "0x" ++ fingerprint) trusted data = some bytes →
    env'.gpgDecrypt bytes = some data

namespace RoundTrip
variable {r r' : Repo}

/-- The new file, as the looking side sees it. -/
theorem stored (h : RoundTrip env env' keyName key collabKeys keysPath keysPath' fingerprint keys r r') :
    SharedFrom env (repoKeyData keyName key) collabKeys r r' ∧
      ∃ loc bytes, r'.fs.resolve env.cwd (repoKeyPath keysPath keyName key.version fingerprint) = .ok loc ∧
        r'.fs.find loc = some (.file bytes) ∧ env'.gpgDecrypt bytes = some (repoKeyData keyName key) := by
  obtain ⟨newFiles, w, w', rfl, rfl, henc, hnew⟩ := h.encrypted
  obtain ⟨hshared, trusted, loc, bytes, hr, -, hf, hct⟩ := stored_of_newFiles henc hnew
  exact ⟨hshared, loc, bytes, hr, hf, h.decryptsOwn _ _ _ hct⟩

/-- With a legal name and agreeing files the key is found. -/
theorem found (h : RoundTrip env env' keyName key collabKeys keysPath keysPath' fingerprint keys r r')
    (hn : LegalKeyName keyName) (hprev : PreviousAgree env' keys keyName key r) :
    FoundAndAccepted env env' keysPath keysPath' keys keyName key fingerprint r' := by
  obtain ⟨hshared, loc, bytes, hr, hf, hd⟩ := h.stored
  have hloc : loc = repoKeyLocation keys (keyName.getD (str "default")) key.version fingerprint := by
    rw [repoKeyPath_eq] at hr
    exact FileSystem.eq_of_resolve_below h.keysAt (repoKeyPath_names hn.isName h.noSlash) hr
  subst hloc
  refine ⟨_, keyName, keyNameOfDirent_eq_some.mpr ⟨hn, rfl⟩, hr, fun secretKeys hmem hs keyFile w hw => ?_⟩
  have hall : ∀ seckey ∈ secretKeys, ∀ data,
      decryptedContents env' r' (repoKeyPath keysPath' keyName key.version seckey) = some data →
      HoldsKey data keyName key.version key := by
    intro seckey hseckey data hdata
    obtain ⟨bytes', hf', hd'⟩ := (decryptedContents_eq h.keysAt' hn.isName (hs seckey hseckey)).mp hdata
    -- each file was there before, or was stored with this key
    rcases hshared.fresh _ _ hf' with hold | ⟨collab, -, hct⟩
    · exact hprev seckey bytes' data (hs seckey hseckey) hold hd'
    · rcases h.decrypts _ _ _ _ hct with hnone | hsome
      · rw [hnone] at hd'
        cases hd'
      · rw [hsome] at hd'
        cases hd'
        exact holdsKey_repoKeyData hn key
  have hown := (decryptedContents_eq h.keysAt' hn.isName h.noSlash).mpr ⟨bytes, hf, hd⟩
  have hfinds := decryptRepoKeyWith_finds h.reliable keyFile keyName key.version keysPath' hall hmem
    (Option.isSome_iff_exists.mpr ⟨_, hown⟩) none w hw
  rcases hres : decryptRepoKeyWith env' keyFile keyName key.version keysPath' none secretKeys w with
    ⟨e | res, w'⟩ <;> rw [hres] at hfinds
  · exact hfinds.elim
  · rw [decryptRepoKey, hres, hfinds]

/-- What a list of two fingerprints gives when the first one's file is decrypted. -/
private theorem holdsKey_of_found {derived : Option Bytes} {secretKeys : List Bytes} {seckey data : Bytes}
    (hrel : Reliable env')
    (hd : decryptedContents env' r' (repoKeyPath keysPath' derived key.version seckey) = some data)
    (hfound : ∀ (keyFile : KeyFile) (w : World), w.toRepo = r' →
      (decryptRepoKey env' keyFile derived key.version (seckey :: secretKeys) keysPath' w).1 =
        .ok (some ((keyFile.setKeyName derived).add key))) : HoldsKey data derived key.version key := by
  let w : World := { toRepo := r' }
  have hres := hfound .empty w rfl
  have hhead := decryptRepoKeyWith_head hrel .empty derived key.version keysPath' none secretKeys hd
  obtain ⟨key', hk, hadd⟩ := hhead.ok (s := w) rfl (Prod.ext hres rfl)
  have hv : key'.version = key.version := by
    obtain ⟨kf, -, hget, -⟩ := hk
    exact KeyFile.version_of_get hget
  have hget := congrArg (KeyFile.get · key.version) (Option.some.inj hadd)
  simp only [KeyFile.get_add, hv, if_true, Option.some.injEq] at hget
  rwa [← hget] at hk

/-- If the key is found, its name is legal, and it is the name taken from the directory. -/
theorem legal_of_found
    (h : RoundTrip env env' keyName key collabKeys keysPath keysPath' fingerprint keys r r')
    (hfound : FoundAndAccepted env env' keysPath keysPath' keys keyName key fingerprint r') :
    LegalKeyName keyName ∧ ∀ seckey data, (47 : UInt8) ∉ seckey →
      decryptedContents env' r' (repoKeyPath keysPath' keyName key.version seckey) = some data →
      HoldsKey data keyName key.version key := by
  obtain ⟨dirent, derived, hdirent, hres, hall⟩ := hfound
  obtain ⟨-, loc, bytes, hr, hf, hd⟩ := h.stored
  obtain rfl : loc = _ := Except.ok.inj (hr.symm.trans hres)
  obtain ⟨hderived, rfl⟩ := keyNameOfDirent_eq_some.mp hdirent
  have hown := holdsKey_of_found h.reliable
    ((decryptedContents_eq h.keysAt' hderived.isName h.noSlash).mpr ⟨bytes, hf, hd⟩)
    (hall [fingerprint] (by simp) (by simpa using h.noSlash))
  have hn : LegalKeyName keyName := by
    refine legalKeyName_of_holdsKey (fun name hname hnil => ?_) h.cString hown
    obtain ⟨keyFile, w, w', hload⟩ := h.loads
    rw [hname, hnil] at hload
    exact loadKey_nil_throws hload
  have heq : derived = keyName := by
    obtain ⟨kf, hl, -, hname⟩ := hown
    exact hname.symm.trans ((holdsKey_of_load hl).mp (holdsKey_repoKeyData hn key)).2
  subst heq
  refine ⟨hn, fun seckey data hs hdata => ?_⟩
  exact holdsKey_of_found h.reliable hdata (hall [seckey, fingerprint] (by simp) (by simpa using ⟨hs, h.noSlash⟩))

/-- The round trip works exactly for legal names and directories whose files agree. -/
theorem foundAndAccepted_iff
    (h : RoundTrip env env' keyName key collabKeys keysPath keysPath' fingerprint keys r r') :
    FoundAndAccepted env env' keysPath keysPath' keys keyName key fingerprint r' ↔
      LegalKeyName keyName ∧ PreviousAgree env' keys keyName key r := by
  refine ⟨fun hfound => ?_, fun ⟨hn, hprev⟩ => h.found hn hprev⟩
  obtain ⟨hn, hall⟩ := h.legal_of_found hfound
  refine ⟨hn, fun seckey bytes data hs hf hd => hall seckey data hs ?_⟩
  exact (decryptedContents_eq h.keysAt' hn.isName hs).mpr ⟨bytes, h.stored.1.grows _ _ hf, hd⟩

end RoundTrip
end

/-- A new repository's git, and a gpg that puts a mark before the data. -/
def markingEnv : Env :=
  { freshEnv with
    gpgEncrypt := fun _ _ data => some (str "gpg:" ++ data)
    gpgDecrypt := fun bytes => if bytes.take 4 = str "gpg:" then some (bytes.drop 4) else none }

/-- The repository after a key was shared from it. -/
def Repo.afterSharing (repo : Repo) (env : Env) (keyName : Option Bytes) (key : Entry)
    (collabKeys : List (Bytes × Bool)) (keysPath : Bytes) : Repo :=
  (encryptRepoKey env keyName key collabKeys keysPath (repo.start env)).2.toRepo

private theorem loadKey_of_file {env : Env} {keyName : Option Bytes} {w : World} {path bytes : Bytes}
    {keyFile : KeyFile} (hpath : (getInternalKeyPath env keyName w).1 = .ok path)
    (hread : (readFile env path (getInternalKeyPath env keyName w).2).1 = .ok (some bytes))
    (hload : KeyFile.loadBytes bytes = .ok keyFile) : ∃ w', loadKey env keyName none none w = (.ok keyFile, w') := by
  rw [loadKey, Prog.bind_of_ok (Prod.ext hpath rfl), Prog.bind_of_ok (Prod.ext hread rfl)]
  unfold KeyFile.loadBytes at hload
  split at hload
  · rename_i kf rest hl
    cases hload
    have hloaded (w : World) : loaded (KeyFile.empty.load (.ofBytes bytes)) w = (.ok keyFile, w) := by
      rw [hl]
      rfl
    exact ⟨_, hloaded _⟩
  · cases hload

private theorem roundTrip_afterSharing {repo : Repo} {keyName : Option Bytes} {key : Entry}
    {fingerprint keysPath : Bytes} {keys : Location}
    (hchars : ∀ name, keyName = some name → (0 : UInt8) ∉ name) (hslash : (47 : UInt8) ∉ fingerprint)
    (hload : ∃ keyFile w w', loadKey markingEnv keyName none none w = (.ok keyFile, w'))
    (henc : (encryptRepoKey markingEnv keyName key [(fingerprint, false)] keysPath (repo.start markingEnv)).1 =
      .ok [repoKeyPath keysPath keyName key.version fingerprint])
    (hkeys : (repo.afterSharing markingEnv keyName key [(fingerprint, false)] keysPath).fs.resolve
      markingEnv.cwd keysPath = .ok keys) :
    RoundTrip markingEnv markingEnv keyName key [(fingerprint, false)] keysPath keysPath fingerprint keys
      repo (repo.afterSharing markingEnv keyName key [(fingerprint, false)] keysPath) where
  cString := hchars
  loads := hload
  encrypted := ⟨_, _, _, rfl, rfl, Prod.ext henc rfl, List.mem_singleton_self _⟩
  noSlash := hslash
  keysAt := hkeys
  keysAt' := hkeys
  reliable _ := rfl
  decrypts _ _ data bytes hb := .inr (by cases hb; rfl)
  decryptsOwn _ data bytes hb := by cases hb; rfl

/-- The default key of a new repository, shared under a name that leads to it. -/
def sharedDefault (keyName : Option Bytes) : Repo :=
  initialised.afterSharing markingEnv keyName Entry.zero [(str "AB12", false)] (str "/.git-crypt/keys")

private theorem roundTrip_sharedDefault (keyName : Option Bytes)
    (hchars : ∀ name, keyName = some name → (0 : UInt8) ∉ name)
    (hpath : (getInternalKeyPath markingEnv keyName (initialised.start markingEnv)).1 =
      .ok (str ".git/git-crypt/keys/default"))
    (hread : (readFile markingEnv (str ".git/git-crypt/keys/default")
      (getInternalKeyPath markingEnv keyName (initialised.start markingEnv)).2).1 =
        .ok (some (KeyFile.empty.add Entry.zero).store))
    (henc : (encryptRepoKey markingEnv keyName Entry.zero [(str "AB12", false)] (str "/.git-crypt/keys")
      (initialised.start markingEnv)).1 =
        .ok [repoKeyPath (str "/.git-crypt/keys") keyName Entry.zero.version (str "AB12")])
    (hkeys : (sharedDefault keyName).fs.resolve markingEnv.cwd (str "/.git-crypt/keys") =
      .ok [str "keys", str ".git-crypt"]) :
    RoundTrip markingEnv markingEnv keyName Entry.zero [(str "AB12", false)] (str "/.git-crypt/keys")
      (str "/.git-crypt/keys") (str "AB12") [str "keys", str ".git-crypt"] initialised
      (sharedDefault keyName) := by
  obtain ⟨w', hload⟩ := loadKey_of_file hpath hread (KeyFile.loadBytes_store (.inl rfl))
  exact roundTrip_afterSharing hchars (by decide) ⟨_, _, w', hload⟩ henc hkeys

/-- The round trip of the default key in a new repository. -/
theorem foundAndAccepted_default :
    FoundAndAccepted markingEnv markingEnv (str "/.git-crypt/keys") (str "/.git-crypt/keys")
      [str "keys", str ".git-crypt"] none Entry.zero (str "AB12") (sharedDefault none) := by
  have h := roundTrip_sharedDefault none (by simp) (by decide +kernel) (by decide +kernel)
    (by decide +kernel) (by decide +kernel)
  refine h.foundAndAccepted_iff.mpr ⟨fun name hname => (by cases hname), fun fpr bytes data _ hf _ => ?_⟩
  have hd : initialised.fs.find [str "keys", str ".git-crypt"] = some .dir :=
    FileSystem.find_of_below [fpr ++ str ".gpg", decimal 0, str "default"] (by simp)
      (Option.isSome_iff_exists.mpr ⟨_, hf⟩)
  have hnone : initialised.fs.find [str "keys", str ".git-crypt"] = none := by decide +kernel
  rw [hnone] at hd
  cases hd

/-- The key shared with `-k default` is not found, though every step of sharing it worked. -/
theorem default_name_not_found :
    RoundTrip markingEnv markingEnv (some (str "default")) Entry.zero [(str "AB12", false)]
      (str "/.git-crypt/keys") (str "/.git-crypt/keys") (str "AB12") [str "keys", str ".git-crypt"]
      initialised (sharedDefault (some (str "default"))) ∧
    ¬ FoundAndAccepted markingEnv markingEnv (str "/.git-crypt/keys") (str "/.git-crypt/keys")
      [str "keys", str ".git-crypt"] (some (str "default")) Entry.zero (str "AB12")
      (sharedDefault (some (str "default"))) := by
  have hchars : ∀ name, some (str "default") = some name → (0 : UInt8) ∉ name := by
    rintro name ⟨⟩
    decide
  have h := roundTrip_sharedDefault (some (str "default")) hchars (by decide +kernel)
    (by decide +kernel) (by decide +kernel) (by decide +kernel)
  exact ⟨h, fun hfound => absurd ((h.legal_of_found hfound).1 _ rfl) (by decide)⟩

end GitCrypt
