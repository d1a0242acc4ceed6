import GitCrypt.Key
import GitCrypt.Library.Hoare
import GitCrypt.Library.FileSystem

/-! What one invocation of the program acts on: the file tree, the git configuration, the
standard streams, and git and gpg as subprocesses. Every system call and subprocess is an
operation with a number, and the environment says which operations fail. -/
namespace GitCrypt
open Iostream Posix

/-- The subprocesses the program starts. -/
inductive Command where
  /-- `git version` -/
  | gitVersion
  /-- `git config NAME VALUE` -/
  | gitConfig (name value : Bytes)
  /-- `git config --get-all NAME` -/
  | gitConfigGetAll (name : Bytes)
  /-- `git config --get NAME` -/
  | gitConfigGet (name : Bytes)
  /-- `git config --remove-section NAME` -/
  | gitConfigRemoveSection (name : Bytes)
  /-- `git rev-parse --git-dir` -/
  | gitRevParseGitDir
  /-- `git rev-parse --show-toplevel` -/
  | gitRevParseShowToplevel
  /-- `git rev-parse --show-cdup` -/
  | gitRevParseShowCdup
  /-- `git status -uno --porcelain` -/
  | gitStatus
  /-- `git ls-files -csz --`, with the path to the top when there is one -/
  | gitLsFiles (pathToTop : Bytes)
  /-- `git check-attr filter diff -- FILENAME` -/
  | gitCheckAttr (filename : Bytes)
  /-- `git check-attr --stdin -z filter diff` -/
  | gitCheckAttrStdin
  /-- `git checkout -- PATH ...` -/
  | gitCheckout (paths : List Bytes)
  /-- `git add -- FILE ...` -/
  | gitAdd (files : List Bytes)
  /-- `git commit -m MESSAGE -- FILE ...` -/
  | gitCommit (message : Bytes) (files : List Bytes)
  /-- `gpg --batch --with-colons --list-secret-keys --fingerprint` -/
  | gpgListSecretKeys (program : Bytes)
  /-- `gpg --batch --with-colons --fingerprint --list-keys QUERY` -/
  | gpgListKeys (program query : Bytes)
  /-- `gpg --batch --with-colons --fixed-list-mode --list-keys 0xFINGERPRINT` -/
  | gpgListKeyUids (program key : Bytes)
  /-- `gpg --batch -o FILENAME -r RECIPIENT -e`, with `--trust-model always` for a trusted key -/
  | gpgEncrypt (program : Bytes) (trusted : Bool) (filename recipient data : Bytes)
  /-- `gpg -q -d FILENAME` -/
  | gpgDecrypt (program filename : Bytes)
  deriving DecidableEq, Repr

/-- The calls on the file tree, each with the path it is given. -/
inductive FileCall where
  | stat (path : Bytes)
  | read (path : Bytes)
  | opendir (path : Bytes)
  | readdir (path : Bytes)
  | mkdir (path : Bytes)
  | unlink (path : Bytes)
  | utimes (path : Bytes)
  /-- `open` or `std::ofstream` for writing -/
  | create (path : Bytes)
  | write (path : Bytes)
  deriving DecidableEq, Repr

def FileCall.path : FileCall → Bytes
  | .stat path | .read path | .opendir path | .readdir path | .mkdir path | .unlink path | .utimes path
  | .create path | .write path => path

/-- A subprocess with its exit status, or a call with whether it succeeded. -/
inductive Event where
  | ran (command : Command) (status : Nat)
  | called (call : FileCall) (ok : Bool)
  deriving DecidableEq, Repr

/-- What outlives a process: the file tree, and the variables of the git configuration with
their full names. -/
structure Repo where
  fs : FileSystem
  config : List (Bytes × Bytes)

/-- The state of a process and of what it runs on. `trace` is not in the source: what the
process has done, in order. -/
structure World extends Repo where
  ops : Nat := 0
  trace : List Event := []
  /-- The static variable of `git_version`. -/
  gitVersion : Option (List Int) := none
  cin : IStream := .ofBytes []
  cout : OStream := {}
  clog : List Bytes := []

/-- What an invocation finds outside: where it runs, what fails, and how git and gpg
answer. -/
structure Env where
  cwd : Location
  /-- `our_exe_path()` -/
  exePath : Bytes
  stdin : Bytes := []
  /-- Whether the operation with this number fails. -/
  fails : Nat → Bool := fun _ => false
  /-- How much of a write gets through when it fails. -/
  short : Nat → Nat := fun _ => 0
  draw : Nat → Draw
  gitDir : Bytes
  topLevel : Bytes
  cdup : Bytes
  version : Bytes
  status : FileSystem → Bytes
  lsFiles : FileSystem → Bytes
  checkAttr : Bytes → Bytes
  checkAttrReply : Bytes → Bytes
  secretKeys : Bytes
  /-- What `gpg --list-keys` prints for a query, none where it fails. -/
  publicKeys : Bytes → Option Bytes := fun _ => none
  keyUids : Bytes → Option Bytes := fun _ => none
  gpgEncrypt : Bytes → Bool → Bytes → Option Bytes
  gpgDecrypt : Bytes → Option Bytes

/-- No operation fails. -/
def Reliable (env : Env) : Prop := ∀ op, env.fails op = false

/-- The world in which a process starts. -/
def Repo.start (repo : Repo) (env : Env) : World := { repo with cin := .ofBytes env.stdin }

/-- A part of the program that runs in the world. -/
abbrev Action := Prog World Exception

/-- The section of a configuration variable: its name up to the last dot. -/
def configSection (name : Bytes) : Bytes := ((name.reverse.dropWhile (· ≠ 46)).drop 1).reverse

def setConfig (config : List (Bytes × Bytes)) (name value : Bytes) : List (Bytes × Bytes) :=
  (name, value) :: config.filter (·.1 ≠ name)

def getConfig (config : List (Bytes × Bytes)) (name : Bytes) : Option Bytes :=
  (config.find? (·.1 = name)).map (·.2)

def removeSection (config : List (Bytes × Bytes)) (name : Bytes) : List (Bytes × Bytes) :=
  config.filter (configSection ·.1 ≠ name)

/-- The exit status, the output and the effect of a subprocess that runs. What `git
checkout` does to the working tree is not followed, nor are the index and the commits. -/
def Command.run (env : Env) (w : World) : Command → Nat × Bytes × World
  | .gitVersion => (0, env.version, w)
  | .gitConfig name value => (0, [], { w with config := setConfig w.config name value })
  | .gitConfigGetAll name | .gitConfigGet name =>
    match getConfig w.config name with
    | none => (1, [], w)
    | some value => (0, value ++ [10], w)
  | .gitConfigRemoveSection name =>
    if w.config.any (configSection ·.1 = name) then
      (0, [], { w with config := removeSection w.config name })
    else (128, [], w)
  | .gitRevParseGitDir => (0, env.gitDir, w)
  | .gitRevParseShowToplevel => (0, env.topLevel, w)
  | .gitRevParseShowCdup => (0, env.cdup, w)
  | .gitStatus => (0, env.status w.fs, w)
  | .gitLsFiles _ => (0, env.lsFiles w.fs, w)
  | .gitCheckAttr filename => (0, env.checkAttr filename, w)
  | .gitCheckAttrStdin => (0, [], w)
  | .gitCheckout _ | .gitAdd _ | .gitCommit .. => (0, [], w)
  | .gpgListSecretKeys _ => (0, env.secretKeys, w)
  | .gpgListKeys _ query =>
    match env.publicKeys query with
    | none => (2, [], w)
    | some output => (0, output, w)
  | .gpgListKeyUids _ key =>
    match env.keyUids key with
    | none => (2, [], w)
    | some output => (0, output, w)
  | .gpgEncrypt _ trusted filename recipient data =>
    -- with --batch gpg does not overwrite
    match w.fs.stat env.cwd filename, env.gpgEncrypt recipient trusted data with
    | .error _, some bytes =>
      match w.fs.writeFile env.cwd filename fun _ => bytes with
      | .ok fs => (0, [], { w with fs })
      | .error _ => (2, [], w)
    | _, _ => (2, [], w)
  | .gpgDecrypt _ filename =>
    match w.fs.readFile env.cwd filename with
    | .error _ => (2, [], w)
    | .ok bytes =>
      match env.gpgDecrypt bytes with
      | none => (2, [], w)
      | some data => (0, data, w)

/-- One operation more. -/
def World.note (w : World) (event : Event) : World :=
  { w with ops := w.ops + 1, trace := w.trace ++ [event] }

/-- `exec_command`: the exit status and the output. A subprocess that fails does nothing. -/
def execCommand (env : Env) (command : Command) : Action (Nat × Bytes) := fun w =>
  if env.fails w.ops then (.ok (128, []), w.note (.ran command 128))
  else match command.run env w with
    | (status, output, w) => (.ok (status, output), w.note (.ran command status))

/-- A system call on the file tree. -/
def syscall {α : Type} (env : Env) (call : FileCall)
    (effect : FileSystem → Except Errno (α × FileSystem)) : Action (Except Errno α) := fun w =>
  if env.fails w.ops then (.ok (.error .eio), w.note (.called call false))
  else match effect w.fs with
    | .error e => (.ok (.error e), w.note (.called call false))
    | .ok (a, fs) => (.ok (.ok a), { w.note (.called call true) with fs })

def log (line : Bytes) : Action Unit := modify fun w => { w with clog := w.clog ++ [line] }

/-- `access(path, F_OK)` -/
def access (env : Env) (path : Bytes) : Action (Except Errno Unit) :=
  syscall env (.stat path) fun fs => (fs.stat env.cwd path).map fun _ => ((), fs)

/-- The bytes an input file stream on a path delivers, none where it cannot be opened.
Reading a directory delivers nothing. -/
def readFile (env : Env) (path : Bytes) : Action (Option Bytes) := do
  let contents ← syscall env (.read path) fun fs =>
    match fs.readFile env.cwd path with
    | .ok bytes => .ok (bytes, fs)
    | .error .eisdir => .ok ([], fs)
    | .error e => .error e
  return contents.toOption

/-- The prefixes of a path that end before a slash, the shortest first; the first byte is
not looked at. -/
def pathPrefixes (path : Bytes) : List Bytes :=
  ((List.range path.length).filter fun i => 1 ≤ i ∧ path[i]? = some 47).map path.take

/-- The body of the loop of `mkdir_parent`. -/
def mkdirPrefix (env : Env) (dir : Bytes) : Action Unit := do
  match ← syscall env (.stat dir) fun fs => (fs.stat env.cwd dir).map (·, fs) with
  | .ok .dir => return
  | .ok (.file _) => throw (.systemError "mkdir_parent" dir .enotdir)
  | .error .enoent =>
    match ← syscall env (.mkdir dir) fun fs => (fs.mkdir env.cwd dir).map ((), ·) with
    | .ok () => return
    | .error e => throw (.systemError "mkdir" dir e)
  | .error e => throw (.systemError "mkdir_parent" dir e)

def mkdirParent (env : Env) (path : Bytes) : Action Unit :=
  forM (pathPrefixes path) (mkdirPrefix env)

def removeFile (env : Env) (filename : Bytes) : Action Unit := do
  match ← syscall env (.unlink filename) fun fs => (fs.unlink env.cwd filename).map ((), ·) with
  | .ok () | .error .enoent => return
  | .error e => throw (.systemError "unlink" filename e)

/-- `touch_file`: only times change, and they are not followed. -/
def touchFile (env : Env) (filename : Bytes) : Action Unit := do
  match ← syscall env (.utimes filename) fun fs => (fs.stat env.cwd filename).map fun _ => ((), fs) with
  | .ok () | .error .enoent => return
  | .error e => throw (.systemError "utimes" filename e)

def createProtectedFile (env : Env) (path : Bytes) : Action Unit := do
  match ← syscall env (.create path) fun fs => (fs.writeFile env.cwd path id).map ((), ·) with
  | .ok () => return
  | .error e => throw (.systemError "open" path e)

/-- `get_directory_contents`: without `.` and `..`, sorted. -/
def getDirectoryContents (env : Env) (path : Bytes) : Action (List Bytes) := do
  match ← syscall env (.opendir path) fun fs => ((fs.readdir env.cwd path).map fun _ => ()).map (·, fs) with
  | .error e => throw (.systemError "opendir" path e)
  | .ok () =>
    match ← syscall env (.readdir path) fun fs => (fs.readdir env.cwd path).map (·, fs) with
    | .ok contents => return contents.mergeSort fun a b => decide (a ≤ b)
    | .error e => throw (.systemError "readdir" path e)

/-- Write to an open file and close it. A write that fails leaves a first part. -/
def writeContents (env : Env) (path data : Bytes) : Action Bool := fun w =>
  let data' := if env.fails w.ops then data.take (env.short w.ops) else data
  match w.fs.writeFile env.cwd path (· ++ data') with
  | .ok fs => (.ok (!env.fails w.ops), { w.note (.called (.write path) (!env.fails w.ops)) with fs })
  | .error _ => (.ok false, w.note (.called (.write path) false))

/-- `Key_file::store_to_file` -/
def storeToFile (env : Env) (keyFile : KeyFile) (path : Bytes) : Action Bool := do
  createProtectedFile env path
  -- opening the stream truncates the file
  match ← syscall env (.create path) fun fs => (fs.writeFile env.cwd path fun _ => []).map ((), ·) with
  | .error _ => return false
  | .ok () => writeContents env path keyFile.store

/-- The numbers `random_bytes` gives, by the operation that asks for them. -/
def randomDraw (env : Env) : Action Draw := fun w =>
  (.ok (env.draw w.ops), { w with ops := w.ops + 1 })

/-- A reliable git and no gpg, from the root of the file system. -/
def freshEnv : Env where
  cwd := []
  exePath := str "git-crypt"
  draw _ := ⟨some Buffer.zero, some Buffer.zero⟩
  gitDir := str ".git\n"
  topLevel := str "/\n"
  cdup := str "\n"
  version := str "git version 2.40.0\n"
  status _ := []
  lsFiles _ := []
  checkAttr _ := []
  checkAttrReply _ := []
  secretKeys := []
  gpgEncrypt _ _ _ := none
  gpgDecrypt _ := none

/-- A new repository, with nothing but its git directory. -/
def freshRepo : Repo := ⟨(FileSystem.empty.mkdir [] (str ".git")).toOption.getD .empty, []⟩

end GitCrypt
