import GitCrypt.ParseOptions
import GitCrypt.RepoKeys

/-! The commands of commands.cpp that install and remove keys: `init`, `unlock` and `lock`.
Each returns its exit status. -/
namespace GitCrypt
open Iostream Posix

/-- The version `unlock` asks `decrypt_repo_keys` for. -/
def unlockKeyVersion : UInt32 := 0

def logLines (lines : List Bytes) : Action Unit := modify fun w => { w with clog := w.clog ++ lines }

/-- Leave with an exit status after a message. -/
def leave (status : Nat) (lines : List Bytes) : Action Nat := do
  logLines lines
  return status

def helpInit : List Bytes :=
  [str "Usage: git-crypt init [OPTIONS]", [],
    str "    -k, --key-name KEYNAME      Initialize the given key, instead of the default", []]

def helpLock : List Bytes :=
  [str "Usage: git-crypt lock [OPTIONS]", [],
    str "    -a, --all                Lock all keys, instead of just the default",
    str "    -k, --key-name KEYNAME   Lock the given key, instead of the default",
    str "    -f, --force              Lock even if unclean (you may lose uncommited work)", []]

/-- Load a key file an argument of `unlock` names, `-` being the standard input. -/
def loadSymmetricKeyFile (env : Env) (symmetricKeyFile : Bytes) : Action (Option KeyFile) := do
  if symmetricKeyFile = str "-" then
    let load := KeyFile.empty.load (← get).cin
    match load.2 with
    | .ok cin => modify fun w => { w with cin }
    | .error _ => pure ()
    return some (← loaded load)
  match ← readFile env symmetricKeyFile with
  | none =>
    logLines [str "Error: " ++ symmetricKeyFile ++ str ": unable to read key file"]
    return none
  | some bytes => return some (← loaded (KeyFile.empty.load (.ofBytes bytes)))

/-- The same with the two exceptions of the format caught. -/
def readSymmetricKeyFile (env : Env) (symmetricKeyFile : Bytes) : Action (Option KeyFile) :=
  tryCatch (loadSymmetricKeyFile env symmetricKeyFile) fun e =>
    match e with
    | .incompatible => do
      logLines [str "Error: " ++ symmetricKeyFile ++ str " is in an incompatible format",
        str "Please upgrade to a newer version of git-crypt."]
      return none
    | .malformed => do
      logLines [str "Error: " ++ symmetricKeyFile ++ str ": not a valid git-crypt key file",
        str "If this key was created prior to git-crypt 0.4, you need to migrate it",
        str "by running 'git-crypt migrate-key /path/to/old_key /path/to/migrated_key'."]
      return none
    | e => throw e

/-- The key files of all arguments; none as soon as one cannot be read. -/
def readSymmetricKeyFiles (env : Env) : List Bytes → Action (Option (List KeyFile))
  | [] => return some []
  | symmetricKeyFile :: args => do
    match ← readSymmetricKeyFile env symmetricKeyFile with
    | none => return none
    | some keyFile =>
      match ← readSymmetricKeyFiles env args with
      | none => return none
      | some keyFiles => return some (keyFile :: keyFiles)

/-- The key files `unlock` installs; none where it has logged an error. -/
def unlockKeyFiles (env : Env) (args : List Bytes) : Action (Option (List KeyFile)) := do
  if args ≠ [] then return ← readSymmetricKeyFiles env args
  let repoKeysPath ← getRepoKeysPath env
  let gpgSecretKeys ← gpgListSecretKeys env
  match ← decryptRepoKeys env unlockKeyVersion gpgSecretKeys repoKeysPath with
  | [] =>
    logLines [str "Error: no GPG secret key available to unlock this repository.",
      str "To unlock with a shared symmetric key instead, specify the path to the symmetric key as an argument to 'git-crypt unlock'."]
    return none
  | keyFiles => return some keyFiles

/-- Write a key file to its place, as `init` and `unlock` do. -/
def installKeyFile (env : Env) (keyFile : KeyFile) (internalKeyPath : Bytes) : Action Bool := do
  mkdirParent env internalKeyPath
  if ← storeToFile env keyFile internalKeyPath then return true
  logLines [str "Error: " ++ internalKeyPath ++ str ": unable to write key file"]
  return false

/-- The third step of `unlock`: the encrypted files, or none where a key was not written. -/
def installKeyFiles (env : Env) : List KeyFile → Action (Option (List Bytes))
  | [] => return some []
  | keyFile :: keyFiles => do
    let internalKeyPath ← getInternalKeyPath env keyFile.getKeyName
    if !(← installKeyFile env keyFile internalKeyPath) then return none
    configureGitFilters env keyFile.getKeyName
    let encryptedFiles ← getEncryptedFiles env keyFile.getKeyName
    match ← installKeyFiles env keyFiles with
    | none => return none
    | some rest => return some (encryptedFiles ++ rest)

/-- The last step of `unlock` and `lock`: touch the files, then check them out. -/
def checkOutFiles (env : Env) (encryptedFiles : List Bytes) (failure : List Bytes) : Action Nat := do
  forM encryptedFiles (touchFile env)
  if ← gitCheckout env encryptedFiles then return 0
  leave 1 failure

def unlock (env : Env) (args : List Bytes) : Action Nat := do
  let statusOutput ← getGitStatus env
  if statusOutput.peek.1.isSome then
    return ← leave 1 [str "Error: Working directory not clean.",
      str "Please commit your changes or 'git stash' them before running 'git-crypt unlock'."]
  match ← unlockKeyFiles env args with
  | none => return 1
  | some keyFiles =>
    match ← installKeyFiles env keyFiles with
    | none => return 1
    | some encryptedFiles =>
      checkOutFiles env encryptedFiles [str "Error: 'git checkout' failed",
        str "git-crypt has been set up but existing encrypted files have not been decrypted"]

/-- `Key_file::generate` on a key file that lives on the stack. -/
def generateKey (env : Env) (keyFile : KeyFile) : Action KeyFile := do
  match keyFile.generate (← randomDraw env) with
  | (keyFile, .ok ()) => return keyFile
  | (_, .error e) => throw e

/-- `init` once its arguments are read. -/
def initKey (env : Env) (keyName : Option Bytes) : Action Nat := do
  let internalKeyPath ← getInternalKeyPath env keyName
  match ← access env internalKeyPath with
  | .ok () => leave 1 [str "Error: this repository has already been initialized with git-crypt."]
  | .error _ =>
    logLines [str "Generating key..."]
    let keyFile ← generateKey env (KeyFile.empty.setKeyName keyName)
    if !(← installKeyFile env keyFile internalKeyPath) then return 1
    configureGitFilters env keyName
    return 0

def init (env : Env) (args : List Bytes) : Action Nat := do
  match parseOptions (keyNameOptions fun value _ => some value) (none : Option Bytes) args with
  | .error e => throw e
  | .ok (keyName, rest) =>
    if keyName = none ∧ rest.length = 1 then
      logLines [str "Warning: 'git-crypt init' with a key file is deprecated as of git-crypt 0.4",
        str "and will be removed in a future release. Please get in the habit of using",
        str "'git-crypt unlock KEYFILE' instead."]
      return ← unlock env args
    if rest ≠ [] then return ← leave 2 (str "Error: git-crypt init takes no arguments" :: helpInit)
    if let some keyName := keyName then validateKeyNameOrThrow keyName
    initKey env keyName

/-- The variables of `lock`. -/
structure LockOptions where
  keyName : Option Bytes := none
  allKeys : Bool := false
  force : Bool := false

def lockOptions : List (OptionDef LockOptions) :=
  keyNameOptions (fun value vars => { vars with keyName := some value }) ++
    [{ name := str "-a", isSet := some fun vars => { vars with allKeys := true } },
      { name := str "--all", isSet := some fun vars => { vars with allKeys := true } },
      { name := str "-f", isSet := some fun vars => { vars with force := true } },
      { name := str "--force", isSet := some fun vars => { vars with force := true } }]

/-- Remove a key and its configuration; the result is the files encrypted with it. -/
def lockKey (env : Env) (keyName : Option Bytes) (internalKeyPath : Bytes) : Action (List Bytes) := do
  removeFile env internalKeyPath
  deconfigureGitFilters env keyName
  getEncryptedFiles env keyName

/-- The key name `lock --all` takes from a directory entry. -/
def lockedKeyName (dirent : Bytes) : Option Bytes :=
  if dirent = str "default" then none else some dirent

/-- The loop of `lock --all`. -/
def lockKeys (env : Env) : List Bytes → Action (List Bytes)
  | [] => return []
  | dirent :: dirents => do
    let thisKeyName := lockedKeyName dirent
    let encryptedFiles ← lockKey env thisKeyName (← getInternalKeyPath env thisKeyName)
    return encryptedFiles ++ (← lockKeys env dirents)

/-- `lock` without `--all`; none where the key is locked already. -/
def lockGivenKey (env : Env) (keyName : Option Bytes) : Action (Option (List Bytes)) := do
  let internalKeyPath ← getInternalKeyPath env keyName
  match ← access env internalKeyPath with
  | .error .enoent =>
    let named := match keyName with
      | none => []
      | some keyName => str " with key '" ++ keyName ++ str "'"
    logLines [str "Error: this repository is already locked" ++ named ++ str "."]
    return none
  | _ => return some (← lockKey env keyName internalKeyPath)

/-- The second step of `lock`; none where the key is locked already. -/
def lockSelected (env : Env) (vars : LockOptions) : Action (Option (List Bytes)) := do
  if vars.allKeys then
    return some (← lockKeys env (← getDirectoryContents env (← getInternalKeysPath env)))
  lockGivenKey env vars.keyName

def lock (env : Env) (args : List Bytes) : Action Nat := do
  match parseOptions lockOptions {} args with
  | .error e => throw e
  | .ok (vars, rest) =>
    if rest ≠ [] then return ← leave 2 (str "Error: git-crypt lock takes no arguments" :: helpLock)
    if vars.allKeys ∧ vars.keyName.isSome then
      return ← leave 2 [str "Error: -k and --all options are mutually exclusive"]
    let statusOutput ← getGitStatus env
    if !vars.force ∧ statusOutput.peek.1.isSome then
      return ← leave 1 [str "Error: Working directory not clean.",
        str "Please commit your changes or 'git stash' them before running 'git-crypt lock'.",
        str "Or, use 'git-crypt lock --force' and possibly lose uncommitted changes."]
    match ← lockSelected env vars with
    | none => return 1
    | some encryptedFiles =>
      checkOutFiles env encryptedFiles [str "Error: 'git checkout' failed",
        str "git-crypt has been locked up but existing decrypted files have not been encrypted"]

end GitCrypt
