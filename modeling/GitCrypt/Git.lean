import GitCrypt.World

/-! The git helpers of commands.cpp: configuration, paths, versions, attributes and the
list of encrypted files. -/
namespace GitCrypt
open Iostream Posix

/-- A `std::stringstream` that a subprocess wrote to. Inserting no output sets failbit. -/
def outputStream (output : Bytes) : IStream := { rest := output, failbit := output.isEmpty }

def successfulExit (status : Nat) : Bool := status = 0

/-- `throw Error(message)` -/
def raiseError {α : Type} (message : String) : Action α := throw (.error (str message))

/-- Throw unless the subprocess exited with success. -/
def requireSuccess (status : Nat) (e : Exception) : Action Unit :=
  if successfulExit status then return else throw e

def attributeName (keyName : Option Bytes) : Bytes :=
  match keyName with
  | some keyName => str "git-crypt-" ++ keyName
  | none => str "git-crypt"

/-- `operator>>` into a string that keeps its value when no word is left. -/
def extractInto (word : Bytes) (s : IStream) : Bytes × IStream :=
  let (next, s) := s.extractWord
  (if s.failbit then word else next, s)

def gitVersionString (env : Env) : Action Bytes := do
  let (status, output) ← execCommand env .gitVersion
  requireSuccess status (.error (str "'git version' failed - is Git installed?"))
  let (word, s) := extractInto [] (outputStream output)
  let (word, s) := extractInto word s
  return (extractInto word s).1

/-- `std::atoi` -/
def atoi (s : Bytes) : Int :=
  let digits (s : Bytes) : Int :=
    ((s.takeWhile fun c => 48 ≤ c && c ≤ 57).foldl (fun n c => 10 * n + (c.toNat - 48)) 0 : Nat)
  match s.dropWhile IStream.isSpace with
  | 45 :: s => - digits s
  | 43 :: s => digits s
  | s => digits s

/-- The lines a `getline` loop takes from a string: a delimiter at the end starts none. -/
def splitLines (delim : UInt8) : Bytes → List Bytes
  | [] => []
  | c :: rest =>
    if c = delim then [] :: splitLines delim rest
    else match splitLines delim rest with
      | [] => [[c]]
      | line :: lines => (c :: line) :: lines

def parseVersion (s : Bytes) : List Int := (splitLines 46 s).map atoi

/-- `git_version`: asked once in a process. -/
def gitVersion (env : Env) : Action (List Int) := do
  match (← get).gitVersion with
  | some version => return version
  | none =>
    let version := parseVersion (← gitVersionString env)
    modify fun w => { w with gitVersion := some version }
    return version

def makeVersion (a b c : Int) : List Int := [a, b, c]

def gitConfig (env : Env) (name value : Bytes) : Action Unit := do
  let (status, _) ← execCommand env (.gitConfig name value)
  requireSuccess status (.error (str "'git config' failed"))

def gitHasConfig (env : Env) (name : Bytes) : Action Bool := do
  let (status, _) ← execCommand env (.gitConfigGetAll name)
  match status with
  | 0 => return true
  | 1 => return false
  | _ => raiseError "'git config' failed"

def gitDeconfig (env : Env) (name : Bytes) : Action Unit := do
  let (status, _) ← execCommand env (.gitConfigRemoveSection name)
  requireSuccess status (.error (str "'git config' failed"))

def configureGitFilters (env : Env) (keyName : Option Bytes) : Action Unit := do
  let escapedGitCryptPath := escapeShellArg env.exePath
  match keyName with
  | some keyName =>
    gitConfig env (str "filter.git-crypt-" ++ keyName ++ str ".smudge")
      (escapedGitCryptPath ++ str " smudge --key-name=" ++ keyName)
    gitConfig env (str "filter.git-crypt-" ++ keyName ++ str ".clean")
      (escapedGitCryptPath ++ str " clean --key-name=" ++ keyName)
    gitConfig env (str "filter.git-crypt-" ++ keyName ++ str ".required") (str "true")
    gitConfig env (str "diff.git-crypt-" ++ keyName ++ str ".textconv")
      (escapedGitCryptPath ++ str " diff --key-name=" ++ keyName)
  | none =>
    gitConfig env (str "filter.git-crypt.smudge") (escapedGitCryptPath ++ str " smudge")
    gitConfig env (str "filter.git-crypt.clean") (escapedGitCryptPath ++ str " clean")
    gitConfig env (str "filter.git-crypt.required") (str "true")
    gitConfig env (str "diff.git-crypt.textconv") (escapedGitCryptPath ++ str " diff")

/-- A later variable is asked for only when the earlier ones are not set. -/
def gitHasAnyConfig (env : Env) : List Bytes → Action Bool
  | [] => return false
  | name :: names => do
    if ← gitHasConfig env name then return true
    gitHasAnyConfig env names

def deconfigureGitFilters (env : Env) (keyName : Option Bytes) : Action Unit := do
  if ← gitHasAnyConfig env [str "filter." ++ attributeName keyName ++ str ".smudge",
      str "filter." ++ attributeName keyName ++ str ".clean",
      str "filter." ++ attributeName keyName ++ str ".required"] then
    gitDeconfig env (str "filter." ++ attributeName keyName)
  if ← gitHasConfig env (str "diff." ++ attributeName keyName ++ str ".textconv") then
    gitDeconfig env (str "diff." ++ attributeName keyName)

def gitCheckoutBatchSize : Nat := 100

def gitCheckoutBatch (env : Env) (paths : List Bytes) : Action Bool := do
  if paths = [] then return true
  let (status, _) ← execCommand env (.gitCheckout paths)
  return successfulExit status

def gitCheckout (env : Env) (paths : List Bytes) : Action Bool := do
  if _h : gitCheckoutBatchSize ≤ paths.length then
    if !(← gitCheckoutBatch env (paths.take gitCheckoutBatchSize)) then return false
    gitCheckout env (paths.drop gitCheckoutBatchSize)
  else gitCheckoutBatch env paths
termination_by paths.length
decreasing_by
  rw [List.length_drop]
  unfold gitCheckoutBatchSize at *
  omega

/-- Two key names are the same when both are null or both are equal strings. -/
def sameKeyName (a b : Option Bytes) : Bool := a = b

def validateKeyNameOrThrow (keyName : Bytes) : Action Unit :=
  match validateKeyName keyName with
  | .ok () => return
  | .error reason => raiseError reason

def getInternalStatePath (env : Env) : Action Bytes := do
  let (status, output) ← execCommand env .gitRevParseGitDir
  requireSuccess status (.error (str "'git rev-parse --git-dir' failed - is this a Git repository?"))
  return ((outputStream output).getline 10).1 ++ str "/git-crypt"

def getInternalKeysPath (env : Env) : Action Bytes := do
  return (← getInternalStatePath env) ++ str "/keys"

def getInternalKeyPath (env : Env) (keyName : Option Bytes) : Action Bytes := do
  return (← getInternalKeysPath env) ++ str "/" ++ keyName.getD (str "default")

def getGitConfig (env : Env) (name : Bytes) : Action Bytes := do
  let (status, output) ← execCommand env (.gitConfigGet name)
  requireSuccess status (.error (str "'git config' missing value for key '" ++ name ++ str "'"))
  return ((outputStream output).getline 10).1

def getRepoStatePath (env : Env) : Action Bytes := do
  let (status, output) ← execCommand env .gitRevParseShowToplevel
  requireSuccess status (.error (str "'git rev-parse --show-toplevel' failed - is this a Git repository?"))
  let path := ((outputStream output).getline 10).1
  if path = [] then
    raiseError "Could not determine Git working tree - is this a non-bare repo?"
  if ← gitHasConfig env (str "git-crypt.repoStateDir") then
    return path ++ str "/" ++ (← getGitConfig env (str "git-crypt.repoStateDir"))
  else return path ++ str "/.git-crypt"

def getRepoKeysPath (env : Env) : Action Bytes := do
  return (← getRepoStatePath env) ++ str "/keys"

def getPathToTop (env : Env) : Action Bytes := do
  let (status, output) ← execCommand env .gitRevParseShowCdup
  requireSuccess status (.error (str "'git rev-parse --show-cdup' failed - is this a Git repository?"))
  return ((outputStream output).getline 10).1

/-- `get_git_status`, with the stream its output went to. -/
def getGitStatus (env : Env) : Action IStream := do
  let (status, output) ← execCommand env .gitStatus
  requireSuccess status (.error (str "'git status' failed - is this a Git repository?"))
  return outputStream output

/-- The filter and diff attributes after one more reported attribute. -/
def recordAttribute (attrs : Bytes × Bytes) (attrName attrValue : Bytes) : Bytes × Bytes :=
  if attrValue = str "unspecified" ∨ attrValue = str "unset" ∨ attrValue = str "set" then attrs
  else if attrName = str "filter" then (attrValue, attrs.2)
  else if attrName = str "diff" then (attrs.1, attrValue)
  else attrs

/-- `line.rfind(": ", pos)` -/
def rfindColon (line : Bytes) (pos : Nat) : Option Nat :=
  (List.range (pos + 1)).reverse.find? fun i => (line.drop i).take 2 = str ": "

/-- A line `FILENAME: ATTRIBUTE: VALUE`, read from its end. -/
def readAttributeLine (attrs : Bytes × Bytes) (line : Bytes) : Bytes × Bytes :=
  match rfindColon line line.length with
  | none | some 0 => attrs
  | some (valuePos + 1) =>
    match rfindColon line valuePos with
    | none => attrs
    | some namePos =>
      recordAttribute attrs ((line.drop (namePos + 2)).take (valuePos + 1 - (namePos + 2)))
        (line.drop (valuePos + 3))

/-- `get_file_attributes` with a process of its own. -/
def getFileAttributes (env : Env) (filename : Bytes) : Action (Bytes × Bytes) := do
  let (status, output) ← execCommand env (.gitCheckAttr filename)
  requireSuccess status (.error (str "'git check-attr' failed - is this a Git repository?"))
  return (splitLines 10 output).foldl readAttributeLine ([], [])

/-- One turn of the loop over the two attributes of a reply. -/
def readAttributeReply (attrs : Bytes × Bytes) (s : IStream) : (Bytes × Bytes) × IStream :=
  let (_, s) := s.getline 0
  let (attrName, s) := s.getline 0
  let (attrValue, s) := s.getline 0
  (recordAttribute attrs attrName attrValue, s)

/-- `get_file_attributes` through the running `git check-attr`, which answers on a stream. -/
def getFileAttributesFrom (env : Env) (filename : Bytes) (checkAttrStdout : IStream) :
    (Bytes × Bytes) × IStream :=
  let s := { checkAttrStdout with rest := checkAttrStdout.rest ++ env.checkAttrReply filename }
  let (attrs, s) := readAttributeReply ([], []) s
  readAttributeReply attrs s

/-- `std::strtoul` in base 8. -/
def strtoul8 (s : Bytes) : Nat :=
  let digits (s : Bytes) : Nat :=
    (s.takeWhile fun c => 48 ≤ c && c ≤ 55).foldl (fun n c => 8 * n + (c.toNat - 48)) 0
  match s.dropWhile IStream.isSpace with
  | 45 :: s => if digits s < 2 ^ 64 then (2 ^ 64 - digits s) % 2 ^ 64 else 2 ^ 64 - 1
  | 43 :: s => min (digits s) (2 ^ 64 - 1)
  | s => min (digits s) (2 ^ 64 - 1)

def isGitFileMode (mode : Bytes) : Bool := strtoul8 mode &&& 0o170000 = 0o100000

/-- One entry of the listing: its mode and its name. -/
def readListingEntry (lsFilesOutput : IStream) : (Bytes × Bytes) × IStream :=
  let (mode, s) := lsFilesOutput.extractWord
  let (_objectId, s) := s.extractWord
  let (_stage, s) := s.extractWord
  let (filename, s) := s.skipWs.getline 0
  ((mode, filename), s)

private theorem readListingEntry_rest_le (s : IStream) :
    (readListingEntry s).2.rest.length ≤ s.extractWord.2.rest.length := by
  refine le_trans (IStream.getline_rest_le _ 0) ?_
  refine le_trans (IStream.skipWs_rest_le _) ?_
  exact le_trans (IStream.extractWord_rest_le _) (IStream.extractWord_rest_le _)

/-- The loop of `get_encrypted_files` over the listing. The attributes come from another
stream. -/
def readListing (lsFilesOutput : IStream) : List (Bytes × Bytes) :=
  if _h : lsFilesOutput.peek.1.isSome = true then
    (readListingEntry lsFilesOutput.peek.2).1 :: readListing (readListingEntry lsFilesOutput.peek.2).2
  else []
termination_by lsFilesOutput.rest.length
decreasing_by exact lt_of_le_of_lt (readListingEntry_rest_le _) (IStream.peek_extractWord_lt _h)

/-- The attributes of the listed files, with a process for each. -/
def filterAttributes (env : Env) : List Bytes → Action (List Bytes)
  | [] => return []
  | filename :: filenames => do
    let attrs ← getFileAttributes env filename
    return attrs.1 :: (← filterAttributes env filenames)

/-- The attributes of the listed files, all from one process. -/
def filterAttributesFrom (env : Env) : List Bytes → IStream → List Bytes
  | [], _ => []
  | filename :: filenames, s =>
    let (attrs, s) := getFileAttributesFrom env filename s
    attrs.1 :: filterAttributesFrom env filenames s

/-- The files `get_encrypted_files` appends. The source asks for attributes while it reads
the listing; neither stream depends on the other. -/
def getEncryptedFiles (env : Env) (keyName : Option Bytes) : Action (List Bytes) := do
  let pathToTop ← getPathToTop env
  let (lsFilesStatus, output) ← execCommand env (.gitLsFiles pathToTop)
  let version ← gitVersion env
  let filenames := ((readListing (.ofBytes output)).filter (isGitFileMode ·.1)).map (·.2)
  if makeVersion 1 8 5 ≤ version then
    let (checkAttrStatus, _) ← execCommand env .gitCheckAttrStdin
    let attributes := filterAttributesFrom env filenames (.ofBytes [])
    requireSuccess lsFilesStatus (.error (str "'git ls-files' failed - is this a Git repository?"))
    requireSuccess checkAttrStatus (.error (str "'git check-attr' failed - is this a Git repository?"))
    return ((filenames.zip attributes).filter (·.2 = attributeName keyName)).map (·.1)
  else
    let attributes ← filterAttributes env filenames
    requireSuccess lsFilesStatus (.error (str "'git ls-files' failed - is this a Git repository?"))
    return ((filenames.zip attributes).filter (·.2 = attributeName keyName)).map (·.1)

end GitCrypt
