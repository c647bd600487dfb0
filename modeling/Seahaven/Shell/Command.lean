import Mathlib.Logic.Function.Basic
import Seahaven.Lossy
import Seahaven.Shell.Policy

/-!
# Simple commands

1. `State`: the parts of a shell that decide what a command name runs.
2. `SimpleCommand.resolve`: a builtin, a function, an external program, or nothing.
3. `composeStdCommand`: the process an external program is started as, and the rendezvous it is
   handed the session on.
4. `execute`, `execCommand`: `SimpleCommand::execute` and the `exec` builtin.
-/

namespace Seahaven.Shell

/-! ## Shells -/

/-- The errors of the functions below. -/
inductive ShellError
  | commandNotFound (name : OsStr)
  | externalExecutionRefused (name : OsStr)
  | unimplemented (message : OsStr)
  | io
  deriving DecidableEq

/-- `builtins::Registration`. `β` is what its functions are. -/
structure Registration (β : Type) where
  body : β
  disabled : Bool
  specialBuiltin : Bool
  declarationBuiltin : Bool

/-- `functions::Registration`, as far as a child is told of it. -/
structure FuncRegistration where
  exported : Bool
  body : OsStr

/-- What the namespace answers about absolute paths. -/
structure Namespace where
  isExecutable : OsStr → Bool
  isDir : OsStr → Bool
  hostPath : OsStr → Except ShellError OsStr

/-- What a program may change about its shell. -/
structure Scratch where
  session : Namespace
  workingDir : OsStr
  /-- The value of `PATH`. -/
  path : OsStr
  /-- The variables that are exported, with their values where they are set. -/
  exported : List (OsStr × Option OsStr)
  funcs : List (OsStr × FuncRegistration)
  posixMode : Bool
  programLocationCache : OsStr → Option OsStr

/-- A shell. -/
structure State (β : Type) extends Scratch where
  builtins : OsStr → Option (Registration β)
  builtinPolicy : BuiltinPolicy
  externalExecution : ExternalExecution
  depth : Nat

variable {β : Type}

namespace State

variable (s : State β)

/-- `Shell::is_subshell`. -/
def isSubshell : Bool := 0 < s.depth

end State

/-- `Path::join`. -/
def joinPath (base path : OsStr) : OsStr :=
  if path.isAbsolute then path
  else if base = [] || base.getLast? = some OsStr.slash then base ++ path
  else base ++ OsStr.slash :: path

namespace State

variable (s : State β)

/-- `Shell::absolute_path`. -/
def absolutePath (path : OsStr) : OsStr :=
  if path = [] || path.isAbsolute then path else joinPath s.workingDir path

/-- `Shell::is_executable_in_namespace`. -/
def isExecutableInNamespace (path : OsStr) : Bool := s.session.isExecutable (s.absolutePath path)

/-- `Shell::host_path_for_execution`. -/
def hostPathForExecution (path : OsStr) : Except ShellError OsStr :=
  s.session.hostPath (s.absolutePath path)

/-- `Shell::find_first_executable_in_path`. -/
def findFirstExecutableInPath (name : OsStr) : Option OsStr :=
  ((s.path.splitOn (.chr ':')).map fun dir => joinPath dir name).find? s.isExecutableInNamespace

/-- `Shell::find_first_executable_in_path_using_cache`. A cached path is not looked at again. -/
def findUsingCache (name : OsStr) : Option OsStr × State β :=
  match s.programLocationCache name with
  | some cached => (some cached, s)
  | none =>
    match s.findFirstExecutableInPath name with
    | some found =>
      (some found, { s with
        programLocationCache := Function.update s.programLocationCache name (some found) })
    | none => (none, s)

end State

/-- `pathsearch::search_for_executable(..).next()`. -/
def searchForExecutable (ns : Namespace) (dirs : List OsStr) (name : OsStr) : Option OsStr :=
  (dirs.map fun dir => joinPath dir name).find? fun path => !ns.isDir path && ns.isExecutable path

/-! ## What a name runs -/

inductive CommandArg
  | string (s : OsStr)
  | assignment (text : OsStr)

/-- `SimpleCommand`. The arguments include the command itself. -/
structure SimpleCommand where
  commandName : OsStr
  args : List CommandArg
  useFunctions : Bool
  pathDirs : Option (List OsStr)
  argv0 : Option OsStr

/-- What a command name stands for. -/
inductive Resolution (β : Type)
  | builtin (registration : Registration β)
  | function (registration : FuncRegistration)
  | external (path : OsStr)
  | notFound

/-- `sys::fs::contains_path_separator`. -/
def containsPathSeparator (s : OsStr) : Bool := s.contains OsStr.slash

/-- The external part of `SimpleCommand::execute`'s lookup. A name with a separator names a file,
which has to be one the namespace can execute unless the name is the launcher's. -/
def SimpleCommand.resolveExternal (c : SimpleCommand) (s : State β) : Resolution β × State β :=
  if containsPathSeparator c.commandName && !s.isExecutableInNamespace c.commandName &&
      !s.externalExecution.namesLauncher c.commandName then
    (.notFound, s)
  else if !containsPathSeparator c.commandName then
    let found := match c.pathDirs with
      | some dirs => (searchForExecutable s.session dirs c.commandName, s)
      | none => s.findUsingCache c.commandName
    match found.1 with
    | some path => (.external path, found.2)
    | none => (.notFound, found.2)
  else (.external c.commandName, s)

/-- The lookup of `SimpleCommand::execute`. -/
def SimpleCommand.resolve (c : SimpleCommand) (s : State β) : Resolution β × State β :=
  match s.builtins c.commandName with
  | some r =>
    if s.posixMode && !r.disabled && r.specialBuiltin then (.builtin r, s)
    else
      match if c.useFunctions then s.funcs.lookup c.commandName else none with
      | some f => (.function f, s)
      | none => if !r.disabled then (.builtin r, s) else c.resolveExternal s
  | none =>
    match if c.useFunctions then s.funcs.lookup c.commandName else none with
    | some f => (.function f, s)
    | none => c.resolveExternal s

/-! ## The process -/

/-- `std::process::Command`, but for the open files it is given. -/
structure StdCommand where
  program : OsStr
  arg0 : OsStr
  args : List OsStr
  currentDir : Option OsStr
  env : List (OsStr × OsStr)
  deriving DecidableEq

/-- `Command::env`. -/
def StdCommand.setEnv (cmd : StdCommand) (name value : OsStr) : StdCommand :=
  { cmd with env := cmd.env.filter (·.1 ≠ name) ++ [(name, value)] }

/-- `Command::env` for each pair. -/
def StdCommand.setEnvs (cmd : StdCommand) (vars : List (OsStr × OsStr)) : StdCommand :=
  vars.foldl (fun cmd v => cmd.setEnv v.1 v.2) cmd

/-- `broker::Rendezvous`, by the path of its socket. -/
structure Rendezvous where
  path : OsStr
  deriving DecidableEq

def rendezvousEnv : OsStr := os "BRUSH_SESSION_RENDEZVOUS"

/-- What the caller of `composeStdCommand` will do with the command. -/
inductive Disposition
  | spawn
  | replace
  deriving DecidableEq

/-- What the host answers while a process is started: whether the open files can be handed on,
the rendezvous, and whether the program starts. -/
structure HostAnswers where
  files : Except ShellError Unit
  rendezvous : Except ShellError Rendezvous
  start : Except ShellError Unit

def exportedVars (s : State β) (commandName : OsStr) : List (OsStr × OsStr) :=
  (s.exported.filterMap fun v => v.2.map fun value => (v.1, value)) ++ [(os "_", commandName)]

def exportedFuncs (s : State β) : List (OsStr × OsStr) :=
  (s.funcs.filter fun f => f.2.exported).map fun f =>
    (os "BASH_FUNC_" ++ f.1 ++ os "%%", os "() " ++ f.2.body)

/-- The host program a permit gives, and whether it is a bundled dispatch. -/
def hostCommand (s : State β) (commandName : OsStr) (disposition : Disposition) :
    Option ExecPermit → Except ShellError (OsStr × Bool)
  | some .viaNamespace =>
    match s.hostPathForExecution commandName with
    | .ok path => .ok (path, false)
    | .error _ => .error (.commandNotFound commandName)
  | some (.trustedLauncher host) =>
    if disposition = .replace then .error (.externalExecutionRefused commandName)
    else .ok (host, true)
  | none => .error (.externalExecutionRefused commandName)

/-- `commands::compose_std_command`. -/
def composeStdCommand (s : State β) (answers : HostAnswers) (commandName argv0 : OsStr)
    (args : List OsStr) (emptyEnv : Bool) (disposition : Disposition) :
    Except ShellError (StdCommand × Option Rendezvous) := do
  let (program, bundledDispatch) ← hostCommand s commandName disposition
    (s.externalExecution.permit commandName args[0]? args[1]? s.builtinPolicy)
  let currentDir ←
    if bundledDispatch then .ok none else (s.hostPathForExecution s.workingDir).map some
  let cmd : StdCommand := ⟨program, argv0, args, currentDir, []⟩
  let cmd := if emptyEnv then cmd
    else (cmd.setEnvs (exportedVars s commandName)).setEnvs (exportedFuncs s)
  answers.files
  if bundledDispatch then
    let r ← answers.rendezvous
    .ok (cmd.setEnv rendezvousEnv r.path, some r)
  else .ok (cmd, none)

/-- A process that was started, or that this process was replaced by. -/
structure Started where
  command : StdCommand
  rendezvous : Option Rendezvous
  disposition : Disposition
  deriving DecidableEq

def stringArgs (args : List CommandArg) : List OsStr :=
  args.filterMap fun
    | .string s => some s
    | .assignment _ => none

/-- `commands::execute_external_command`. -/
def executeExternalCommand (s : State β) (answers : HostAnswers) (commandName path : OsStr)
    (argv0 : Option OsStr) (args : List CommandArg) : Except ShellError Started := do
  let (cmd, rendezvous) ← composeStdCommand s answers path (argv0.getD commandName)
    (stringArgs args) false .spawn
  answers.start
  .ok ⟨cmd, rendezvous, .spawn⟩

/-- What running a command came to, as far as processes go. -/
structure Outcome (β : Type) where
  /-- What the command name was found to be, and for which command. -/
  resolution : Option (SimpleCommand × Resolution β)
  started : Except ShellError (Option Started)
  after : State β

/-- `SimpleCommand::execute`. What a builtin or a function does next are commands of their own. -/
def execute (s : State β) (answers : HostAnswers) (c : SimpleCommand) : Outcome β :=
  let (resolution, after) := c.resolve s
  { resolution := some (c, resolution)
    after := after
    started :=
      match resolution with
      | .external path =>
        (executeExternalCommand after answers c.commandName path.toStringLossy c.argv0
          (c.args.drop 1)).map some
      | .notFound => .error (.commandNotFound c.commandName)
      | _ => .ok none }

structure ExecCommand where
  nameForArgv0 : Option OsStr
  emptyEnvironment : Bool
  execAsLogin : Bool
  args : List OsStr

/-- `ExecCommand::execute`. In a subshell it is the `command` builtin. -/
def execCommand (s : State β) (answers : HostAnswers) (e : ExecCommand) : Outcome β :=
  match e.args with
  | [] => ⟨none, .ok none, s⟩
  | name :: args =>
    if s.isSubshell then
      if e.emptyEnvironment || e.execAsLogin || e.nameForArgv0.isSome then
        ⟨none, .error (.unimplemented (os "exec with options in subshell not yet supported")), s⟩
      else execute s answers ⟨name, e.args.map .string, false, none, none⟩
    else
      let argv0 := e.nameForArgv0.getD name
      let argv0 := if e.execAsLogin then os "-" ++ argv0 else argv0
      let started := do
        let (cmd, rendezvous) ←
          composeStdCommand s answers name argv0 args e.emptyEnvironment .replace
        answers.start
        .ok (some ⟨cmd, rendezvous, .replace⟩)
      ⟨none, started, s⟩

end Seahaven.Shell
