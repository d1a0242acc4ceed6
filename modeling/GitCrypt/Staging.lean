import GitCrypt.Passthrough
import GitCrypt.Queries
import GitCrypt.Status

/-! The command `status`, with the index and the blobs that it and git act on. -/
namespace GitCrypt
open Iostream IStream Posix

/-! ### The index -/

/-- The entries of the index, which its header counts in 32 bits. -/
structure Index where
  entries : List IndexEntry
  count_lt : entries.length < 2 ^ 32

/-- The entries of a path: one, or one for each side of a conflict. -/
def Index.at (index : Index) (name : Bytes) : List IndexEntry := index.entries.filter (·.name = name)

/-- What git has staged: the index, and the blobs by their object names. -/
structure Git where
  index : Index
  blobs : Bytes → Option Bytes

/-- The same, with the files `git add` was run on, in order, which is not in the source. -/
structure GitState extends Git where
  added : List Bytes := []

/-- `git add -- FILE`: its exit status and what it leaves. It changes the entry of the path it
is given, and blobs are not lost. -/
structure GitAdd where
  run : World → Git → Bytes → Nat × Git
  others : ∀ w g filename name, name ≠ filename → (run w g filename).2.index.at name = g.index.at name
  single : ∀ w g filename, (run w g filename).1 = 0 → ((run w g filename).2.index.at filename).length ≤ 1
  blobs : ∀ w g filename objectId blob, g.blobs objectId = some blob →
    (run w g filename).2.blobs objectId = some blob

/-- How git lists the files of the index and the untracked ones, and how it adds one. -/
structure GitEnv where
  listing : FileSystem → Git → List Bytes → Bytes
  add : GitAdd

/-- The subprocesses of `status` that see the index. -/
inductive IndexCommand where
  /-- `git ls-files -cotsz --exclude-standard -- PATH ...` -/
  | lsFiles (paths : List Bytes)
  /-- `git cat-file blob OBJECT` -/
  | catFile (objectId : Bytes)
  /-- `git ls-files -sz -- FILENAME` -/
  | lsFilesOf (filename : Bytes)
  /-- `git add -- FILENAME` -/
  | add (filename : Bytes)

namespace IndexCommand

def run (genv : GitEnv) (w : World) (g : Git) : IndexCommand → Nat × Bytes × Git
  | lsFiles paths => (0, genv.listing w.fs g paths, g)
  | catFile objectId =>
    match g.blobs objectId with
    | none => (128, [], g)
    | some blob => (0, blob, g)
  | lsFilesOf filename => (0, (g.index.at filename).flatMap (·.line), g)
  | add filename => ((genv.add.run w g filename).1, [], (genv.add.run w g filename).2)

def added : IndexCommand → List Bytes
  | add filename => [filename]
  | _ => []

end IndexCommand

/-- A part of `status`, which acts on the index as well. -/
abbrev StatusAction := Prog (World × GitState) Exception

/-- `exec_command` for these subprocesses. One that fails does nothing. -/
def execIndexCommand (env : Env) (genv : GitEnv) (command : IndexCommand) : StatusAction (Nat × Bytes) := fun s =>
  let w := { s.1 with ops := s.1.ops + 1 }
  let added := s.2.added ++ command.added
  if env.fails s.1.ops then (.ok (128, []), w, { s.2 with added })
  else match command.run genv s.1 s.2.toGit with
    | (status, output, git) => (.ok (status, output), w, ⟨git, added⟩)

/-! ### The command -/

structure StatusOptions where
  repoStatusOnly : Bool := false
  showEncryptedOnly : Bool := false
  showUnencryptedOnly : Bool := false
  fixProblems : Bool := false
  machineOutput : Bool := false

def statusOptions : List (OptionDef StatusOptions) :=
  [{ name := str "-r", isSet := some fun vars => { vars with repoStatusOnly := true } },
    { name := str "-e", isSet := some fun vars => { vars with showEncryptedOnly := true } },
    { name := str "-u", isSet := some fun vars => { vars with showUnencryptedOnly := true } },
    { name := str "-f", isSet := some fun vars => { vars with fixProblems := true } },
    { name := str "--fix", isSet := some fun vars => { vars with fixProblems := true } },
    { name := str "-z", isSet := some fun vars => { vars with machineOutput := true } }]

/-- The message with which `status` refuses its options. -/
def StatusOptions.refusal (vars : StatusOptions) (files : List Bytes) : Option Bytes :=
  if vars.repoStatusOnly && (vars.showEncryptedOnly || vars.showUnencryptedOnly) then
    some (str "Error: -e and -u options cannot be used with -r")
  else if vars.repoStatusOnly && vars.fixProblems then
    some (str "Error: -f option cannot be used with -r")
  else if vars.repoStatusOnly && files ≠ [] then
    some (str "Error: filenames cannot be specified when -r is used")
  else if vars.showEncryptedOnly && vars.showUnencryptedOnly then
    some (str "Error: -e and -u options are mutually exclusive")
  else if vars.fixProblems && (vars.showEncryptedOnly || vars.showUnencryptedOnly) then
    some (str "Error: -e and -u options cannot be used with -f")
  else if vars.machineOutput then
    some (str "Sorry, machine-parseable output is not yet implemented")
  else none

/-- What the loop over the files accumulates. -/
structure StatusTotals where
  attributeErrors : Bool := false
  unencryptedBlobErrors : Bool := false
  /-- An `unsigned int`, as the next one. -/
  nbrOfFixedBlobs : UInt32 := 0
  nbrOfFixErrors : UInt32 := 0

/-- `std::cout << bytes` -/
def print (bytes : Bytes) : Action Unit := modify fun w => { w with cout := w.cout.write bytes }

/-- `print` with a line feed, as `std::endl` puts it. -/
def printLine (bytes : Bytes) : Action Unit := print (bytes ++ [10])

section
variable (env : Env) (genv : GitEnv)

/-- `check_if_blob_is_encrypted`, which asks for the blob by its object name. -/
def checkIfObjectIsEncrypted (objectId : Bytes) : StatusAction Bool := do
  let (status, output) ← execIndexCommand env genv (.catFile objectId)
  Prog.onFst (requireSuccess status (.error (str "'git cat-file' failed - is this a Git repository?")))
  return checkIfBlobIsEncrypted output

def checkIfFileIsEncrypted (filename : Bytes) : StatusAction Bool := do
  let (status, output) ← execIndexCommand env genv (.lsFilesOf filename)
  Prog.onFst (requireSuccess status (.error (str "'git ls-files' failed - is this a Git repository?")))
  let (next, s) := (outputStream output).peek
  if next = none then return false
  let (_mode, s) := s.extractWord
  let (objectId, _) := s.extractWord
  checkIfObjectIsEncrypted env genv objectId

/-- The branch of `status -f` for a file whose blob is not encrypted. -/
def fixFile (totals : StatusTotals) (filename : Bytes) : StatusAction StatusTotals := do
  match ← Prog.onFst (access env filename) with
  | .error _ =>
    Prog.onFst (log (str "Error: " ++ filename ++ str ": cannot stage encrypted version because not present in " ++
      str "working tree - please 'git rm' or 'git checkout' it"))
    return { totals with nbrOfFixErrors := totals.nbrOfFixErrors + 1 }
  | .ok () =>
    Prog.onFst (touchFile env filename)
    let (status, _) ← execIndexCommand env genv (.add filename)
    Prog.onFst (requireSuccess status (.error (str "'git-add' failed")))
    if ← checkIfFileIsEncrypted env genv filename then
      Prog.onFst (printLine (filename ++ str ": staged encrypted version"))
      return { totals with nbrOfFixedBlobs := totals.nbrOfFixedBlobs + 1 }
    else
      Prog.onFst (log (str "Error: " ++ filename ++ str ": still unencrypted even after staging"))
      return { totals with nbrOfFixErrors := totals.nbrOfFixErrors + 1 }

/-- Whether a file with this filter attribute is taken to be encrypted. -/
def isGitCryptFilter (filter : Bytes) : Bool := filter = str "git-crypt" || filter.take 10 = str "git-crypt-"

/-- `!object_id.empty() && !check_if_blob_is_encrypted(object_id)` -/
def blobIsUnencrypted (objectId : Bytes) : StatusAction Bool := do
  if objectId = [] then return false
  return !(← checkIfObjectIsEncrypted env genv objectId)

/-- What `status` without `-f` prints of an encrypted file. -/
def encryptedLine (attrs : Bytes × Bytes) (unencrypted : Bool) (filename : Bytes) : Bytes :=
  str "    encrypted: " ++ filename ++
    (if attrs.2 ≠ attrs.1 then str " *** WARNING: diff=" ++ attrs.1 ++ str " attribute not set ***" else []) ++
    if unencrypted then str " *** WARNING: staged/committed version is NOT ENCRYPTED! ***" else []

/-- The rest of a turn of the loop, with the name and the object it has read. -/
def statusFile (vars : StatusOptions) (totals : StatusTotals) (filename objectId : Bytes) :
    StatusAction StatusTotals := do
  let attrs ← Prog.onFst (getFileAttributes env filename)
  if isGitCryptFilter attrs.1 then
    let unencrypted ← blobIsUnencrypted env genv objectId
    if vars.fixProblems && unencrypted then fixFile env genv totals filename
    else if !vars.fixProblems && !vars.showUnencryptedOnly then
      Prog.onFst (printLine (encryptedLine attrs unencrypted filename))
      let attributeErrors := totals.attributeErrors || attrs.2 ≠ attrs.1
      return { totals with attributeErrors, unencryptedBlobErrors := totals.unencryptedBlobErrors || unencrypted }
    else return totals
  else
    if !vars.fixProblems && !vars.showEncryptedOnly then
      Prog.onFst (printLine (str "not encrypted: " ++ filename))
    return totals

/-- The loop. The source reads the listing while it goes; nothing it does changes the listing. -/
def statusFiles (vars : StatusOptions) : StatusTotals → List (Bytes × Bytes) → StatusAction StatusTotals
  | totals, [] => return totals
  | totals, file :: files => do statusFiles vars (← statusFile env genv vars totals file.1 file.2) files

def plural (n : UInt32) : Bytes := if n ≠ 1 then str "s" else []

/-- What `status` says in the end, in this order. -/
def StatusTotals.summary (totals : StatusTotals) : Bytes :=
  (if totals.attributeErrors then
    str "\nWarning: one or more files has a git-crypt filter attribute but not a\n" ++
      str "corresponding git-crypt diff attribute.  For proper 'git diff' operation\n" ++
      str "you should fix the .gitattributes file to specify the correct diff attribute.\n" ++
      str "Consult the git-crypt documentation for help.\n"
    else []) ++
  (if totals.unencryptedBlobErrors then
    str "\nWarning: one or more files is marked for encryption via .gitattributes but\n" ++
      str "was staged and/or committed before the .gitattributes file was in effect.\n" ++
      str "Run 'git-crypt status' with the '-f' option to stage an encrypted version.\n"
    else []) ++
  (if totals.nbrOfFixedBlobs ≠ 0 then
    str "Staged " ++ decimal totals.nbrOfFixedBlobs ++ str " encrypted file" ++ plural totals.nbrOfFixedBlobs ++
      str ".\nWarning: if these files were previously committed, unencrypted versions still exist in the " ++
      str "repository's history.\n"
    else []) ++
  if totals.nbrOfFixErrors ≠ 0 then
    str "Unable to stage " ++ decimal totals.nbrOfFixErrors ++ str " file" ++ plural totals.nbrOfFixErrors ++ str ".\n"
  else []

def StatusTotals.exitStatus (totals : StatusTotals) : Nat :=
  if totals.attributeErrors || totals.unencryptedBlobErrors || totals.nbrOfFixErrors ≠ 0 then 1 else 0

/-- The paths `status` gives to `git ls-files`. -/
def statusPaths (files : List Bytes) : Action (List Bytes) := do
  if files ≠ [] then return files
  let pathToTop ← getPathToTop env
  return if pathToTop = [] then [] else [pathToTop]

/-- `status` from the loop on. -/
def statusOf (vars : StatusOptions) (listed : List (Bytes × Bytes)) : StatusAction Nat := do
  let totals ← statusFiles env genv vars {} listed
  Prog.onFst (print totals.summary)
  return totals.exitStatus

def status (args : List Bytes) : StatusAction Nat := do
  match parseOptions statusOptions {} args with
  | .error e => throw e
  | .ok (vars, files) =>
    if let some message := vars.refusal files then return ← Prog.onFst (leave 2 [message])
    if files = [] ∧ vars.repoStatusOnly then return 0
    let paths ← Prog.onFst (statusPaths env files)
    let (lsFilesStatus, output) ← execIndexCommand env genv (.lsFiles paths)
    Prog.onFst (requireSuccess lsFilesStatus (.error (str "'git ls-files' failed - is this a Git repository?")))
    statusOf env genv vars (examined output)

end

end GitCrypt
