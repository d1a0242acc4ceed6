import GitCrypt.Gpg

/-! Key files on disk and the keys of the repository, encrypted for each GPG user:
`load_key`, `encrypt_repo_key`, `decrypt_repo_key` and `decrypt_repo_keys`. -/
namespace GitCrypt
open Iostream Posix

/-- The key file a load leaves, or what it throws. -/
def loaded (load : KeyFile × Except KeyError IStream) : Action KeyFile :=
  match load with
  | (keyFile, .ok _) => return keyFile
  | (_, .error .malformed) => throw .malformed
  | (_, .error .incompatible) => throw .incompatible

/-- `load_key` into an empty key file. -/
def loadKey (env : Env) (keyName keyPath legacyPath : Option Bytes) : Action KeyFile :=
  match legacyPath, keyPath with
  | some path, _ => do
    match ← readFile env path with
    | none => throw (.error (str "Unable to open key file: " ++ path))
    | some bytes => loaded (KeyFile.empty.loadLegacy (.ofBytes bytes))
  | none, some path => do
    match ← readFile env path with
    | none => throw (.error (str "Unable to open key file: " ++ path))
    | some bytes => loaded (KeyFile.empty.load (.ofBytes bytes))
  | none, none => do
    match ← readFile env (← getInternalKeyPath env keyName) with
    | none =>
      raiseError "Unable to open key file - have you unlocked/initialized this repository yet?"
    | some bytes => loaded (KeyFile.empty.load (.ofBytes bytes))

/-- An unsigned number as `operator<<` writes it. -/
def decimal (n : UInt32) : Bytes := (Nat.toDigits 10 n.toNat).map fun c => UInt8.ofNat c.toNat

/-- The path `path_builder` builds. -/
def repoKeyPath (keysPath : Bytes) (keyName : Option Bytes) (keyVersion : UInt32)
    (fingerprint : Bytes) : Bytes :=
  keysPath ++ str "/" ++ keyName.getD (str "default") ++ str "/" ++ decimal keyVersion ++ str "/" ++
    (fingerprint ++ str ".gpg")

def missingVersion : String :=
  "GPG-encrypted keyfile is malformed because it does not contain expected key version"
def wrongName : String :=
  "GPG-encrypted keyfile is malformed because it does not contain expected key name"

/-- What `decrypt_repo_key` does with a decrypted file. -/
def acceptRepoKey (keyFile : KeyFile) (keyName : Option Bytes) (keyVersion : UInt32)
    (decryptedContents : IStream) : Action KeyFile := do
  let thisVersionKeyFile ← loaded (KeyFile.empty.load decryptedContents)
  match thisVersionKeyFile.get keyVersion with
  | none => raiseError missingVersion
  | some thisVersionEntry =>
    if !sameKeyName keyName thisVersionKeyFile.getKeyName then raiseError wrongName
    return (keyFile.setKeyName keyName).add thisVersionEntry

/-- `gpg_decrypt_from_file` with a `Gpg_error` caught. -/
def tryGpgDecrypt (env : Env) (path : Bytes) : Action (Except Exception IStream) :=
  tryCatch (do return .ok (← gpgDecryptFromFile env path)) fun e =>
    match e with
    | .gpgError message => return .error (.gpgError message)
    | e => throw e

/-- The loop of `decrypt_repo_key` over the secret keys, with the last GPG error so far. The
result is the key file with the key, or none where the source returns false. -/
def decryptRepoKeyWith (env : Env) (keyFile : KeyFile) (keyName : Option Bytes)
    (keyVersion : UInt32) (keysPath : Bytes) (gpgError : Option Exception) :
    List Bytes → Action (Option KeyFile)
  | [] =>
    match gpgError with
    | some e => throw e
    | none => return none
  | seckey :: secretKeys => do
    let path := repoKeyPath keysPath keyName keyVersion seckey
    match ← access env path with
    | .error _ => decryptRepoKeyWith env keyFile keyName keyVersion keysPath gpgError secretKeys
    | .ok () =>
      match ← tryGpgDecrypt env path with
      | .error e => decryptRepoKeyWith env keyFile keyName keyVersion keysPath (some e) secretKeys
      | .ok decryptedContents =>
        return some (← acceptRepoKey keyFile keyName keyVersion decryptedContents)

def decryptRepoKey (env : Env) (keyFile : KeyFile) (keyName : Option Bytes) (keyVersion : UInt32)
    (secretKeys : List Bytes) (keysPath : Bytes) : Action (Option KeyFile) :=
  decryptRepoKeyWith env keyFile keyName keyVersion keysPath none secretKeys

/-- The key name `decrypt_repo_keys` takes from a directory entry; none where it goes on
to the next entry. -/
def keyNameOfDirent (dirent : Bytes) : Option (Option Bytes) :=
  if dirent = str "default" then some none
  else if validateKeyName dirent = .ok () then some (some dirent)
  else none

theorem isName_of_validKeyName {name : Bytes} (h : ValidKeyName name) : IsName name := by
  obtain ⟨hne, -, hchars, -⟩ := validKeyName_iff.mp h
  have hdot : ¬ KeyNameChar 46 := by decide
  refine ⟨hne, ?_, ?_, fun hs => absurd (hchars 47 hs) (by decide)⟩
  · rintro rfl
    exact hdot (hchars 46 (by simp [dot]))
  · rintro rfl
    exact hdot (hchars 46 (by simp [dotDot]))

theorem LegalKeyName.isName {keyName : Option Bytes} (h : LegalKeyName keyName) :
    IsName (keyName.getD (str "default")) := by
  cases keyName with
  | none => exact by decide
  | some name => exact isName_of_validKeyName (h name rfl)

/-- The file name of a legal key tells the key. -/
theorem LegalKeyName.eq_of_getD {a b : Option Bytes} (ha : LegalKeyName a) (hb : LegalKeyName b)
    (h : a.getD (str "default") = b.getD (str "default")) : a = b := by
  have hne (name : Bytes) (hv : ValidKeyName name) : name ≠ str "default" :=
    (validKeyName_iff.mp hv).2.1
  cases a with
  | none =>
    cases b with
    | none => rfl
    | some b => exact absurd h.symm (hne b (hb b rfl))
  | some a =>
    cases b with
    | none => exact absurd h (hne a (ha a rfl))
    | some b => rw [show a = b from h]

theorem legalKeyName_of_dirent {dirent : Bytes} {keyName : Option Bytes}
    (h : keyNameOfDirent dirent = some keyName) : LegalKeyName keyName := by
  unfold keyNameOfDirent at h
  split_ifs at h with hd hv
  · cases h
    intro name hname
    cases hname
  · cases h
    intro name hname
    cases hname
    exact hv

/-- The directory of a legal name gives the name back. -/
theorem keyNameOfDirent_eq_some {dirent : Bytes} {keyName : Option Bytes} :
    keyNameOfDirent dirent = some keyName ↔ LegalKeyName keyName ∧ dirent = keyName.getD (str "default") := by
  constructor
  · intro h
    refine ⟨legalKeyName_of_dirent h, ?_⟩
    unfold keyNameOfDirent at h
    split_ifs at h with hd hv <;> cases h
    · exact hd
    · rfl
  · rintro ⟨hn, rfl⟩
    cases keyName with
    | none => rfl
    | some name =>
      have hv := hn name rfl
      rw [Option.getD_some, keyNameOfDirent, if_neg (validKeyName_iff.mp hv).2.1]
      exact if_pos hv

/-- The loop of `decrypt_repo_keys`: the key files it appends. -/
def decryptRepoKeysOf (env : Env) (keyVersion : UInt32) (secretKeys : List Bytes)
    (keysPath : Bytes) : List Bytes → Action (List KeyFile)
  | [] => return []
  | dirent :: dirents => do
    match keyNameOfDirent dirent with
    | none => decryptRepoKeysOf env keyVersion secretKeys keysPath dirents
    | some keyName =>
      let decrypted ← decryptRepoKey env KeyFile.empty keyName keyVersion secretKeys keysPath
      return decrypted.toList ++ (← decryptRepoKeysOf env keyVersion secretKeys keysPath dirents)

/-- `decrypt_repo_keys` returns whether it has appended a key file. -/
def decryptRepoKeys (env : Env) (keyVersion : UInt32) (secretKeys : List Bytes) (keysPath : Bytes) :
    Action (List KeyFile) := do
  match ← access env keysPath with
  | .error _ => return []
  | .ok () =>
    decryptRepoKeysOf env keyVersion secretKeys keysPath (← getDirectoryContents env keysPath)

/-- The contents of the file `encrypt_repo_key` encrypts. -/
def repoKeyData (keyName : Option Bytes) (key : Entry) : Bytes :=
  ((KeyFile.empty.setKeyName keyName).add key).store

/-- The loop of `encrypt_repo_key` over the collaborators: the new files. -/
def encryptRepoKeyTo (env : Env) (keyName : Option Bytes) (keyVersion : UInt32) (keyFileData : Bytes)
    (keysPath : Bytes) : List (Bytes × Bool) → Action (List Bytes)
  | [] => return []
  | (fingerprint, keyIsTrusted) :: collabKeys => do
    let path := repoKeyPath keysPath keyName keyVersion fingerprint
    match ← access env path with
    | .ok () => encryptRepoKeyTo env keyName keyVersion keyFileData keysPath collabKeys
    | .error _ =>
      mkdirParent env path
      gpgEncryptToFile env path fingerprint keyIsTrusted keyFileData
      return path :: (← encryptRepoKeyTo env keyName keyVersion keyFileData keysPath collabKeys)

def encryptRepoKey (env : Env) (keyName : Option Bytes) (key : Entry)
    (collabKeys : List (Bytes × Bool)) (keysPath : Bytes) : Action (List Bytes) :=
  encryptRepoKeyTo env keyName key.version (repoKeyData keyName key) keysPath collabKeys

end GitCrypt
