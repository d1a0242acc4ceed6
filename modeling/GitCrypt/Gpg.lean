import GitCrypt.Git

/-! The gpg subprocesses of gpg.cpp: which public and secret keys there are, encryption to a
file and decryption of one. -/
namespace GitCrypt
open Iostream

/-- The configured program. Whatever goes wrong while git is asked, `gpg` is used. -/
def gpgGetExecutable (env : Env) : Action Bytes :=
  tryCatch (getGitConfig env (str "gpg.program")) fun _ => return str "gpg"

/-- The column of a colon-separated line, counted from 0. -/
def gpgNthColumn (line : Bytes) : Nat → Except Exception Bytes
  | 0 => .ok (line.takeWhile (· ≠ 58))
  | col + 1 =>
    if (58 : UInt8) ∈ line then gpgNthColumn ((line.dropWhile (· ≠ 58)).drop 1) col
    else .error (.gpgError (str "Malformed output from gpg"))

/-- The fingerprints on the `fpr:` lines of a listing. -/
def readFingerprints : List Bytes → Except Exception (List Bytes)
  | [] => .ok []
  | line :: lines =>
    if line.take 4 = str "fpr:" then
      match gpgNthColumn line 9, readFingerprints lines with
      | .error e, _ => .error e
      | .ok _, .error e => .error e
      | .ok fingerprint, .ok fingerprints => .ok (fingerprint :: fingerprints)
    else readFingerprints lines

/-- The lines from the first on that starts with `uid:`. -/
def readUid : List Bytes → Except Exception Bytes
  | [] => .ok []
  | line :: lines => if line.take 4 = str "uid:" then gpgNthColumn line 9 else readUid lines

/-- Empty where the key is not in the keyring. -/
def gpgGetUid (env : Env) (fingerprint : Bytes) : Action Bytes := do
  let program ← gpgGetExecutable env
  let (status, output) ← execCommand env (.gpgListKeyUids program (str "0x" ++ fingerprint))
  if !successfulExit status then return []
  match readUid (splitLines 10 output) with
  | .ok uid => return uid
  | .error e => throw e

/-- The fingerprints of primary keys: those on `fpr:` lines after a `pub:` line and before
the next `sub:` line. -/
def readPublicKeys : Bool → List Bytes → Except Exception (List Bytes)
  | _, [] => .ok []
  | isPubkey, line :: lines =>
    if line.take 4 = str "pub:" then readPublicKeys true lines
    else if line.take 4 = str "sub:" then readPublicKeys false lines
    else if isPubkey ∧ line.take 4 = str "fpr:" then
      match gpgNthColumn line 9, readPublicKeys isPubkey lines with
      | .error e, _ => .error e
      | .ok _, .error e => .error e
      | .ok fingerprint, .ok fingerprints => .ok (fingerprint :: fingerprints)
    else readPublicKeys isPubkey lines

def gpgLookupKey (env : Env) (query : Bytes) : Action (List Bytes) := do
  let program ← gpgGetExecutable env
  let (status, output) ← execCommand env (.gpgListKeys program query)
  if !successfulExit status then return []
  match readPublicKeys false (splitLines 10 output) with
  | .ok fingerprints => return fingerprints
  | .error e => throw e

def gpgListSecretKeys (env : Env) : Action (List Bytes) := do
  let program ← gpgGetExecutable env
  let (status, output) ← execCommand env (.gpgListSecretKeys program)
  requireSuccess status (.gpgError (str "gpg --list-secret-keys failed"))
  match readFingerprints (splitLines 10 output) with
  | .ok secretKeys => return secretKeys
  | .error e => throw e

def gpgEncryptToFile (env : Env) (filename recipientFingerprint : Bytes) (keyIsTrusted : Bool)
    (data : Bytes) : Action Unit := do
  let program ← gpgGetExecutable env
  let (status, _) ← execCommand env
    (.gpgEncrypt program keyIsTrusted filename (str "0x" ++ recipientFingerprint) data)
  requireSuccess status (.gpgError (str "Failed to encrypt"))

/-- The decrypted contents, on the stream they went to. -/
def gpgDecryptFromFile (env : Env) (filename : Bytes) : Action IStream := do
  let program ← gpgGetExecutable env
  let (status, output) ← execCommand env (.gpgDecrypt program filename)
  requireSuccess status (.gpgError (str "Failed to decrypt"))
  return outputStream output

end GitCrypt
