import GitCrypt.Commands

/-! The commands of commands.cpp that hand keys on: `add_gpg_user`, `export_key` and
`migrate_key`. -/
namespace GitCrypt
open Iostream Posix

def helpAddGpgUser : List Bytes :=
  [str "Usage: git-crypt add-gpg-user [OPTIONS] GPG_USER_ID ...", [],
    str "    -k, --key-name KEYNAME      Add GPG user to given key, instead of default",
    str "    -n, --no-commit             Don't automatically commit",
    str "    --trusted                   Assume the GPG user IDs are trusted", []]

def helpExportKey : List Bytes :=
  [str "Usage: git-crypt export-key [OPTIONS] FILENAME", [],
    str "    -k, --key-name KEYNAME      Export the given key, instead of the default", [],
    str "When FILENAME is -, export to standard out."]

def helpMigrateKey : List Bytes :=
  [str "Usage: git-crypt migrate-key OLDFILENAME NEWFILENAME", [],
    str "Use - to read from standard in/write to standard out."]

/-- The variables of `add_gpg_user`. -/
structure AddGpgUserOptions where
  keyName : Option Bytes := none
  noCommit : Bool := false
  trusted : Bool := false
  deriving DecidableEq

def addGpgUserOptions : List (OptionDef AddGpgUserOptions) :=
  keyNameOptions (fun value vars => { vars with keyName := some value }) ++
    [{ name := str "-n", isSet := some fun vars => { vars with noCommit := true } },
      { name := str "--no-commit", isSet := some fun vars => { vars with noCommit := true } },
      { name := str "--trusted", isSet := some fun vars => { vars with trusted := true } }]

def isFullFingerprint (arg : Bytes) : Bool := arg.take 2 = str "0x" && arg.length = 42

/-- The fingerprint for each argument, and whether the key is trusted; none where a key is
not found or not the only one. -/
def lookupCollaborators (env : Env) (trusted : Bool) :
    List Bytes → Action (Option (List (Bytes × Bool)))
  | [] => return some []
  | arg :: args => do
    match ← gpgLookupKey env arg with
    | [] =>
      logLines [str "Error: public key for '" ++ arg ++ str "' not found in your GPG keyring"]
      return none
    | [fingerprint] =>
      match ← lookupCollaborators env trusted args with
      | none => return none
      | some collabKeys => return some ((fingerprint, trusted || isFullFingerprint arg) :: collabKeys)
    | _ =>
      logLines [str "Error: more than one public key matches '" ++ arg ++
        str "' - please be more specific"]
      return none

/-- What keeps the files of the state directory from being encrypted. -/
def stateGitattributes : Bytes :=
  str "# Do not edit this file.  To specify the files to encrypt, create your own\n" ++
    str "# .gitattributes file in the directory where your files are.\n" ++
    str "* !filter !diff\n" ++ str "*.gpg binary\n"

/-- Write the attributes of the state directory where there are none: the new files, or none
where they cannot be written. -/
def writeStateGitattributes (env : Env) (path : Bytes) : Action (Option (List Bytes)) := do
  match ← access env path with
  | .ok () => return some []
  | .error _ =>
    let written ← (do
      match ← syscall env (.create path) fun fs => (fs.writeFile env.cwd path fun _ => []).map ((), ·) with
      | .error _ => return false
      | .ok () => writeContents env path stateGitattributes)
    if written then return some [path]
    logLines [str "Error: unable to write " ++ path]
    return none

/-- The part of the commit message on the collaborators. -/
def collaboratorLines (env : Env) : List (Bytes × Bool) → Action Bytes
  | [] => return []
  | (fingerprint, _) :: collabKeys => do
    let uid ← gpgGetUid env fingerprint
    return str "    " ++ fingerprint ++ str "\n        " ++ uid ++ str "\n" ++
      (← collaboratorLines env collabKeys)

def commitMessage (env : Env) (collabKeys : List (Bytes × Bool)) : Action Bytes := do
  return str "Add " ++ str (toString collabKeys.length) ++ str " git-crypt collaborator" ++
    (if collabKeys.length ≠ 1 then str "s" else []) ++ str "\n\nNew collaborators:\n\n" ++
    (← collaboratorLines env collabKeys)

/-- The last step of `add_gpg_user`. -/
def commitNewFiles (env : Env) (noCommit : Bool) (collabKeys : List (Bytes × Bool))
    (newFiles : List Bytes) : Action Nat := do
  if newFiles = [] then return 0
  let (status, _) ← execCommand env (.gitAdd newFiles)
  if !successfulExit status then return ← leave 1 [str "Error: 'git add' failed"]
  if noCommit then return 0
  let message ← commitMessage env collabKeys
  let (status, _) ← execCommand env (.gitCommit message newFiles)
  if !successfulExit status then return ← leave 1 [str "Error: 'git commit' failed"]
  return 0

/-- `add_gpg_user` once the collaborators and the key are known. -/
def shareKey (env : Env) (vars : AddGpgUserOptions) (key : Entry) (collabKeys : List (Bytes × Bool)) :
    Action Nat := do
  let statePath ← getRepoStatePath env
  let newFiles ← encryptRepoKey env vars.keyName key collabKeys (statePath ++ str "/keys")
  match ← writeStateGitattributes env (statePath ++ str "/.gitattributes") with
  | none => return 1
  | some newAttributes => commitNewFiles env vars.noCommit collabKeys (newFiles ++ newAttributes)

def addGpgUser (env : Env) (args : List Bytes) : Action Nat := do
  match parseOptions addGpgUserOptions {} args with
  | .error e => throw e
  | .ok (vars, rest) =>
    if rest = [] then return ← leave 2 (str "Error: no GPG user ID specified" :: helpAddGpgUser)
    match ← lookupCollaborators env vars.trusted rest with
    | none => return 1
    | some collabKeys =>
      let keyFile ← loadKey env vars.keyName none none
      match keyFile.getLatest with
      | none => leave 1 [str "Error: key file is empty"]
      | some key => shareKey env vars key collabKeys

/-- Store a key file under a name, `-` being the standard output. -/
def outputKeyFile (env : Env) (keyFile : KeyFile) (outFileName : Bytes) : Action Nat := do
  if outFileName = str "-" then
    modify fun w => { w with cout := w.cout.write keyFile.store }
    return 0
  if ← storeToFile env keyFile outFileName then return 0
  leave 1 [str "Error: " ++ outFileName ++ str ": unable to write key file"]

def exportKey (env : Env) (args : List Bytes) : Action Nat := do
  match parseOptions (keyNameOptions fun value _ => some value) (none : Option Bytes) args with
  | .error e => throw e
  | .ok (keyName, rest) =>
    if rest.length ≠ 1 then return ← leave 2 (str "Error: no filename specified" :: helpExportKey)
    let keyFile ← loadKey env keyName none none
    outputKeyFile env keyFile (rest.headD [])

/-- The key file `migrate_key` reads, `-` being the standard input; none where it cannot be
opened. -/
def loadLegacyKeyFile (env : Env) (keyFileName : Bytes) : Action (Option KeyFile) := do
  if keyFileName = str "-" then
    return some (← loaded (KeyFile.empty.loadLegacy (← get).cin))
  match ← readFile env keyFileName with
  | none => return none
  | some bytes => return some (← loaded (KeyFile.empty.loadLegacy (.ofBytes bytes)))

def migrateKey (env : Env) (args : List Bytes) : Action Nat := do
  match args with
  | [keyFileName, newKeyFileName] =>
    let migrate : Action Nat := do
      match ← loadLegacyKeyFile env keyFileName with
      | none => leave 1 [str "Error: " ++ keyFileName ++ str ": unable to open for reading"]
      | some keyFile => outputKeyFile env keyFile newKeyFileName
    tryCatch migrate fun e =>
      match e with
      | .malformed =>
        leave 1 [str "Error: " ++ keyFileName ++ str ": not a valid legacy git-crypt key file"]
      | e => throw e
  | _ => leave 2 (str "Error: filenames not specified" :: helpMigrateKey)

end GitCrypt
