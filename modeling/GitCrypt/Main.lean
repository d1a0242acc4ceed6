import GitCrypt.FilterCommands
import GitCrypt.KeyCommands
import GitCrypt.Staging

/-! The function `main` of git-crypt.cpp, with the commands and the help texts that only it uses. -/
namespace GitCrypt
open Iostream Posix

def helpUnlock : List Bytes :=
  [str "Usage: git-crypt unlock", str "   or: git-crypt unlock KEY_FILE ..."]

def helpRmGpgUser : List Bytes :=
  [str "Usage: git-crypt rm-gpg-user [OPTIONS] GPG_USER_ID ...", [],
    str "    -k, --key-name KEYNAME      Remove user from given key, instead of default",
    str "    -n, --no-commit             Don't automatically commit", []]

def helpLsGpgUsers : List Bytes := [str "Usage: git-crypt ls-gpg-users"]

def helpKeygen : List Bytes :=
  [str "Usage: git-crypt keygen FILENAME", [], str "When FILENAME is -, write to standard out."]

def helpRefresh : List Bytes := [str "Usage: git-crypt refresh"]

def helpStatus : List Bytes :=
  [str "Usage: git-crypt status [OPTIONS] [FILE ...]", [],
    str "    -e             Show encrypted files only",
    str "    -u             Show unencrypted files only",
    str "    -f, --fix      Fix problems with the repository", []]

def rmGpgUser (_args : List Bytes) : Action Nat := leave 1 [str "Error: rm-gpg-user is not yet implemented."]

def lsGpgUsers (_args : List Bytes) : Action Nat := leave 1 [str "Error: ls-gpg-users is not yet implemented."]

def refresh (_args : List Bytes) : Action Nat := leave 1 [str "Error: refresh is not yet implemented."]

/-- `keygen` from the key on. -/
def keygenTo (env : Env) (keyFileName : Bytes) : Action Nat := do
  logLines [str "Generating key..."]
  let keyFile ← generateKey env KeyFile.empty
  outputKeyFile env keyFile keyFileName

def keygen (env : Env) (args : List Bytes) : Action Nat := do
  match args with
  | [keyFileName] =>
    if keyFileName = str "-" then keygenTo env keyFileName
    else match ← access env keyFileName with
      | .ok () => leave 1 [keyFileName ++ str ": File already exists"]
      | .error _ => keygenTo env keyFileName
  | _ => leave 2 (str "Error: no filename specified" :: helpKeygen)

/-- `print_usage` -/
def usage (argv0 : Bytes) : List Bytes :=
  [str "Usage: " ++ argv0 ++ str " COMMAND [ARGS ...]", [],
    str "Common commands:",
    str "  init                 generate a key and prepare repo to use git-crypt",
    str "  status               display which files are encrypted",
    str "  lock                 de-configure git-crypt and re-encrypt files in work tree", [],
    str "GPG commands:",
    str "  add-gpg-user USERID  add the user with the given GPG user ID as a collaborator",
    str "  unlock               decrypt this repo using the in-repo GPG-encrypted key", [],
    str "Symmetric key commands:",
    str "  export-key FILE      export this repo's symmetric key to the given file",
    str "  unlock KEYFILE       decrypt this repo using the given symmetric key", [],
    str "Legacy commands:",
    str "  init KEYFILE         alias for 'unlock KEYFILE'",
    str "  keygen KEYFILE       generate a git-crypt key in the given file",
    str "  migrate-key OLD NEW  migrate the legacy key file OLD to the new format in NEW", [],
    str "See 'git-crypt help COMMAND' for more information on a specific command."]

/-- `print_version` -/
def versionLines : List Bytes := [str "git-crypt 0.8.0"]

/-- `help_for_command`; none where it returns false. -/
def helpForCommand (command : Bytes) : Option (List Bytes) :=
  if command = str "init" then some helpInit
  else if command = str "unlock" then some helpUnlock
  else if command = str "lock" then some helpLock
  else if command = str "add-gpg-user" then some helpAddGpgUser
  else if command = str "rm-gpg-user" then some helpRmGpgUser
  else if command = str "ls-gpg-users" then some helpLsGpgUsers
  else if command = str "export-key" then some helpExportKey
  else if command = str "keygen" then some helpKeygen
  else if command = str "migrate-key" then some helpMigrateKey
  else if command = str "refresh" then some helpRefresh
  else if command = str "status" then some helpStatus
  else none

def printLines (lines : List Bytes) : Action Unit := forM lines printLine

def notACommand (command : Bytes) : Bytes :=
  str "Error: '" ++ command ++ str "' is not a git-crypt command. See 'git-crypt help'."

/-- `help`, which does not look at a second argument. -/
def help (argv0 : Bytes) (args : List Bytes) : Action Nat := do
  match args with
  | [] =>
    printLines (usage argv0)
    return 0
  | command :: _ =>
    match helpForCommand command with
    | none => leave 1 [notACommand command]
    | some lines =>
      printLines lines
      return 0

def version (_args : List Bytes) : Action Nat := do
  printLines versionLines
  return 0

/-- What a process finds outside, with the texts that the C and C++ libraries give. -/
structure Invoked where
  env : Env
  genv : GitEnv
  strerror : Errno → Bytes
  /-- `std::ios_base::failure::what` -/
  what : Bytes

section
variable (P : Primitives) (argv0 : Bytes) (i : Invoked)

/-- The command handlers; none where `main` comes to the end of the list. -/
def handler (command : Bytes) (args : List Bytes) : Option (StatusAction Nat) :=
  if command = str "help" then some (Prog.onFst (help argv0 args))
  else if command = str "version" then some (Prog.onFst (version args))
  else if command = str "init" then some (Prog.onFst (init i.env args))
  else if command = str "unlock" then some (Prog.onFst (unlock i.env args))
  else if command = str "lock" then some (Prog.onFst (lock i.env args))
  else if command = str "add-gpg-user" then some (Prog.onFst (addGpgUser i.env args))
  else if command = str "rm-gpg-user" then some (Prog.onFst (rmGpgUser args))
  else if command = str "ls-gpg-users" then some (Prog.onFst (lsGpgUsers args))
  else if command = str "export-key" then some (Prog.onFst (exportKey i.env args))
  else if command = str "keygen" then some (Prog.onFst (keygen i.env args))
  else if command = str "migrate-key" then some (Prog.onFst (migrateKey i.env args))
  else if command = str "refresh" then some (Prog.onFst (refresh args))
  else if command = str "status" then some (status i.env i.genv args)
  else if command = str "clean" then some (Prog.onFst (clean P i.env args))
  else if command = str "smudge" then some (Prog.onFst (smudge P i.env args))
  else if command = str "diff" then some (Prog.onFst (diff P i.env args))
  else none

/-- The inner handler of `main`. -/
def catchOptionError (command : Bytes) (e : Exception) : StatusAction Nat :=
  match e with
  | .optionError optionName message =>
    Prog.onFst (leave 2 ((str "git-crypt: Error: " ++ optionName ++ str ": " ++ str message) ::
      (helpForCommand command).getD []))
  | e => throw e

/-- `main` from the command on. -/
def runCommand (command : Bytes) (args : List Bytes) : StatusAction Nat :=
  match handler P argv0 i command args with
  | none => Prog.onFst (leave 2 [notACommand command])
  | some run => tryCatch run (catchOptionError command)

/-- `main` from behind its options on. -/
def runArguments (args : List Bytes) : StatusAction Nat :=
  match args with
  | [] => Prog.onFst (leave 2 (usage argv0))
  | command :: args => runCommand P argv0 i command args

/-- The body of `main`. Its loop over the options never comes to a second turn. -/
def mainBody (args : List Bytes) : StatusAction Nat :=
  match args with
  | [] => runArguments P argv0 i []
  | arg :: rest =>
    if arg.head? ≠ some 45 then runArguments P argv0 i (arg :: rest)
    else if arg = str "--help" then Prog.onFst (leave 0 (usage argv0))
    else if arg = str "--version" then Prog.onFst (leave 0 versionLines)
    else if arg = str "--" then runArguments P argv0 i rest
    else Prog.onFst (leave 2 ((argv0 ++ str ": " ++ arg ++ str ": Unknown option") :: usage argv0))

/-- `System_error::message`, for an error number. -/
def systemErrorMessage (action : String) (target : Bytes) (errno : Errno) : Bytes :=
  str action ++ (if target ≠ [] then str ": " ++ target else []) ++ str ": " ++ i.strerror errno

/-- The outer handlers of `main`, which write to `std::cerr`. -/
def catchError (e : Exception) : StatusAction Nat :=
  match e with
  | .error message => Prog.onFst (leave 1 [str "git-crypt: Error: " ++ message])
  | .gpgError message => Prog.onFst (leave 1 [str "git-crypt: GPG error: " ++ message])
  | .systemError action target errno =>
    Prog.onFst (leave 1 [str "git-crypt: System error: " ++ systemErrorMessage i action target errno])
  | .cryptoError location message =>
    Prog.onFst (leave 1 [str "git-crypt: Crypto error: " ++ str location ++ str ": " ++ str message])
  | .incompatible => Prog.onFst (leave 1
      [str "git-crypt: This repository contains a incompatible key file.  Please upgrade git-crypt."])
  | .malformed => Prog.onFst (leave 1
      [str "git-crypt: This repository contains a malformed key file.  It may be corrupted."])
  | .ioFailure => Prog.onFst (leave 1 [str "git-crypt: I/O error: " ++ i.what])
  | e => throw e

/-- The exit status of a process with these arguments after `argv[0]`. -/
def main (args : List Bytes) : StatusAction Nat := tryCatch (mainBody P argv0 i args) (catchError i)

end

end GitCrypt
