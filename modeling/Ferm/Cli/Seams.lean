import Ferm.Domains
import Ferm.Lib.Act
import Ferm.Lib.Lines

/-!
# Running tools

The seams of the apply path: a command of a backend is run, a save is piped to a restore tool. What a run gives is the world's
answer. A tool that exits non-zero is an error of `ferm` in a restore and a status in a command; a tool that cannot be run at all
ends the program in a command. A commit writes its text, pipes it, and reports by a status what the tool makes of it.
-/

namespace Ferm

/-! ## Exceptions and exit codes -/

namespace ExitCode

def OK : Int := 0

def ERROR : Int := 1

end ExitCode

/-- An exception of the apply path: an error of `ferm`, one that was raised before the kernel was touched, an exit, the exit after
every family was rolled back, and any other exception, which nothing here catches. -/
inductive Raised where
  | ferm (message : String)
  | kernelUntouched (message : String)
  | exit (code : Int)
  | rolledBack
  | other (name : String)
  deriving DecidableEq, Repr

/-- The exit status of the program: `main` renders an error of `ferm`, and the interpreter any other exception. -/
def exitStatus : Except Raised Int → Int
  | .ok code => code
  | .error (.ferm _) => ExitCode.ERROR
  | .error (.kernelUntouched _) => ExitCode.ERROR
  | .error (.exit code) => code
  | .error .rolledBack => ExitCode.ERROR
  | .error (.other _) => 1

/-! ## Runs of tools -/

/-- A process to run: an argument list with what is piped to it, or a command line for the shell. -/
inductive Invocation where
  | argv (args : List String) (input : Option String)
  | shell (command : String)
  deriving DecidableEq, Repr

/-- What becomes of a process: it ends with a return code and its error output, or it cannot be run. -/
inductive Completed where
  | returned (code : Int) (stderr : String)
  | failed (reason : String)
  deriving DecidableEq, Repr

/-- The process ended with return code 0. -/
def Completed.ok : Completed → Bool
  | returned code _ => code = 0
  | failed _ => false

/-- The process could not be run. -/
def Completed.unrunnable : Completed → Bool
  | returned _ _ => false
  | failed _ => true

/-- What the seams work on: processes are run, lines are written to the script, messages to the standard error. -/
structure World (σ : Type) where
  run : Invocation → σ → Completed × σ
  line : String → σ → σ
  message : String → σ → σ

/-- The options the seams look at. -/
structure IoOptions where
  lines : Bool := false
  noexec : Bool := false
  noflush : Bool := false
  deriving DecidableEq, Repr

/-- `_SHELL_META`. -/
def SHELL_META : List Char := "$&*()\x7b\x7d[]'\";\\|?<>~`\n".toList

/-- `_VAR_ASSIGN_RE`: letters and an equals sign at the start. -/
def isVarAssign (command : List Char) : Bool :=
  (command.dropWhile fun c => c.isAlpha).head? = some '='

/-- How `execute` runs a command: by the shell, or split at the blanks. -/
def commandInvocation (command : String) : Invocation :=
  if startsWith command ". " || isVarAssign command.toList || command.toList.any (SHELL_META.contains ·) ||
      (pyWords command.toList).isEmpty then
    .shell command
  else .argv ((pyWords command.toList).map String.ofList) none

variable {σ : Type}

/-- The process of a command is run. Without an interpreter or a program for it the program ends; a signal counts as status 1. -/
def runCommand (world : World σ) (command : String) : Act σ Raised (Option Int) := do
  match ← Act.ofState (world.run (commandInvocation command)) with
  | .failed reason => do
    Act.modify (world.message ("failed to execute: " ++ reason ++ "\n"))
    throw (.exit ExitCode.ERROR)
  | .returned code _ =>
    if code = 0 then return none
    else if code < 0 then do
      Act.modify (world.message ("child died with signal " ++ toString (-code) ++ "\n"))
      return some 1
    else return some code

/-- `execute`: the status of a command, none if it succeeds. -/
def execute (world : World σ) (options : IoOptions) (command : String) : Act σ Raised (Option Int) := do
  if options.lines then Act.modify (world.line (command ++ "\n"))
  if options.noexec then return none
  runCommand world command

/-- `_run_failed`: the message for a process that cannot be run. -/
def runFailed (path reason : String) : String := "Failed to run " ++ path ++ ": " ++ reason

/-- A save is piped to a process, and it is an error of `ferm` if that fails; `detail` is the message for a process that exits
non-zero, by its error output. -/
def pipeSave (world : World σ) (args : List String) (save path : String) (detail : String → String) : Act σ Raised Unit := do
  match ← Act.ofState (world.run (.argv args (some save))) with
  | .failed reason => throw (.ferm (runFailed path reason))
  | .returned code stderr => if code = 0 then return () else throw (.ferm (detail stderr))

/-- The arguments of the restore tool. -/
def restoreArgs (options : IoOptions) (path : String) : List String :=
  if options.noflush then [path, "--noflush"] else [path]

/-- `restore_domain`. -/
def restoreDomain (world : World σ) (options : IoOptions) (path save : String) : Act σ Raised Unit :=
  pipeSave world (restoreArgs options path) save path fun _ => "Failed to run " ++ path

/-- `_nft_check_save`: the script is checked, and nothing is installed. -/
def nftCheckSave (world : World σ) (path save : String) : Act σ Raised Unit :=
  pipeSave world [path, "-c", "-f", "-"] save path fun stderr =>
    let detail := String.ofList (pyStrip stderr.toList)
    if detail = "" then "Failed to run " ++ path ++ " -c" else detail

/-- The restore of `_make_nft_restore`: the script is checked, then run. -/
def nftRestore (world : World σ) (path save : String) : Act σ Raised Unit := do
  nftCheckSave world path save
  pipeSave world [path, "-f", "-"] save path fun _ => "Failed to run " ++ path

/-! ## Commits -/

section Commits

variable (world : World σ) (options : IoOptions) (shell : Bool)

/-- The lines a commit writes for its text: with `--shell` a here-document for the command. -/
def emitSave (command text : String) : Act σ Raised Unit := do
  if options.lines then
    if shell then Act.modify (world.line (command ++ " <<EOT\n"))
    Act.modify (world.line text)
    if shell then Act.modify (world.line "EOT\n")

/-- An error of `ferm` is printed and becomes a status. -/
def reportFailure : Raised → Act σ Raised (Option Int)
  | .ferm message => do
    Act.modify (world.message (message ++ "\n"))
    return some 1
  | .kernelUntouched message => do
    Act.modify (world.message (message ++ "\n"))
    return some 1
  | .exit code => throw (.exit code)
  | .rolledBack => throw .rolledBack
  | .other name => throw (.other name)

/-- A restore's error becomes the commit's status. -/
def restoreStatus (restore : Act σ Raised Unit) : Act σ Raised (Option Int) :=
  tryCatch (do
    restore
    return none) (reportFailure world)

/-- A text is written, and restored by a tool. -/
def commitSave (command text : String) (restore : Act σ Raised Unit) : Act σ Raised (Option Int) := do
  emitSave world options shell command text
  if options.noexec then return none
  restoreStatus world restore

/-- `_commit_fast`, with a save. -/
def commitFast (path save : String) : Act σ Raised (Option Int) :=
  commitSave world options shell (if options.noflush then path ++ " --noflush" else path) save (restoreDomain world options path save)

/-- The end of the nft backend's `commit`, with the text that is to be applied. An empty one is neither written nor run. -/
def commitNft (tool applyText : String) : Act σ Raised (Option Int) :=
  if applyText = "" then pure none
  else commitSave world options shell (tool ++ " -f -") applyText (nftRestore world tool applyText)

end Commits

end Ferm
