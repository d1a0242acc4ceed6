import GitCrypt.Filter
import GitCrypt.Commands

/-! The filters of commands.cpp as git runs them: arguments, key file, input and output. -/
namespace GitCrypt
open Iostream Posix

/-- The variables of the filters. -/
structure PlumbingOptions where
  keyName : Option Bytes := none
  keyFile : Option Bytes := none
  deriving DecidableEq

def plumbingOptions : List (OptionDef PlumbingOptions) :=
  keyNameOptions (fun value vars => { vars with keyName := some value }) ++
    [{ name := str "--key-file", value := some fun value vars => { vars with keyFile := some value } }]

def parsePlumbingOptions (args : List Bytes) : Except Exception (PlumbingOptions × List Bytes) :=
  parseOptions plumbingOptions {} args

/-- The legacy key file, which before 0.4 stood in front of the `own` arguments of the
command. The outer none is for wrong arguments. -/
def legacyKeyPath (vars : PlumbingOptions) (args : List Bytes) (own : Nat) : Option (Option Bytes) :=
  if args.length = own then some none
  else if vars.keyName = none ∧ vars.keyFile = none ∧ args.length = own + 1 then some args.head?
  else none

/-- Let a filter write to the standard streams. What is left of its input is not followed. -/
def FilterRun.perform (run : FilterRun) : Action Nat := fun w =>
  (run.ending, { w with cout := w.cout.append run.cout, clog := w.clog ++ run.clog.map str })

/-- What `clean` and `smudge` share. -/
def filterStdin (env : Env) (usage : Bytes) (filter : KeyFile → IStream → FilterRun)
    (args : List Bytes) : Action Nat := do
  match parsePlumbingOptions args with
  | .error e => throw e
  | .ok (vars, rest) =>
    match legacyKeyPath vars rest 0 with
    | none => leave 2 [usage]
    | some legacyPath =>
      let keyFile ← loadKey env vars.keyName vars.keyFile legacyPath
      (filter keyFile (← get).cin).perform

def clean (P : Primitives) (env : Env) (args : List Bytes) : Action Nat :=
  filterStdin env (str "Usage: git-crypt clean [--key-name=NAME] [--key-file=PATH]") (cleanWith P) args

def smudge (P : Primitives) (env : Env) (args : List Bytes) : Action Nat :=
  filterStdin env (str "Usage: git-crypt smudge [--key-name=NAME] [--key-file=PATH]") (smudgeWith P) args

/-- `diff` after the key file: the file is opened, and a directory cannot be read from. -/
def diffFile (P : Primitives) (env : Env) (keyFile : KeyFile) (filename : Bytes) : Action Nat := do
  match ← syscall env (.read filename) fun fs => (fs.readFile env.cwd filename).map (·, fs) with
  | .ok bytes => (diffWith P keyFile (.ofBytes bytes)).perform
  | .error .eisdir => throw .ioFailure
  | .error _ => leave 1 [str "git-crypt: " ++ filename ++ str ": unable to open for reading"]

def diff (P : Primitives) (env : Env) (args : List Bytes) : Action Nat := do
  match parsePlumbingOptions args with
  | .error e => throw e
  | .ok (vars, rest) =>
    match legacyKeyPath vars rest 1 with
    | none => leave 2 [str "Usage: git-crypt diff [--key-name=NAME] [--key-file=PATH] FILENAME"]
    | some legacyPath =>
      let keyFile ← loadKey env vars.keyName vars.keyFile legacyPath
      diffFile P env keyFile (rest.getLastD [])

/-- The exit status `main` gives for the way a command ends. No handler takes an
`std::invalid_argument`, which aborts. -/
def exitStatus : Except Exception Nat → Nat
  | .ok status => status
  | .error (.optionError ..) => 2
  | .error (.invalidArgument _) => 134
  | .error _ => 1

theorem exitStatus_error (e : Exception) : exitStatus (.error e) ≠ 0 := by
  cases e <;> simp [exitStatus]

end GitCrypt
