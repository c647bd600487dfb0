import Seahaven.Shell.HostText
import Seahaven.Shell.Scopes

/-!
# The working directory

The session, the shell and the variable `PWD` each record the working directory. `set_working_dir`
updates one after another, with steps between them that can fail.

1. `DirShell`: the records, and `DirShell.new`, the shell as it is constructed.
2. `setWorkingDir`, `setMounts`, `pushd`, `popd`, as the source has them.
3. `DirStep`: the operations as data, each run over the host as it is then.
-/

namespace Seahaven.Shell

open OsStr Vfs Host

/-- `to_string_lossy().to_string()`. -/
def lossyText (s : OsStr) : List Char :=
  s.toStringLossy.filterMap fun
    | .chr c => some c
    | .raw _ => none

/-- The errors of a change of directory. -/
inductive DirError
  | io (e : IoError)
  | notADirectory (path : OsStr)
  | variable (fault : Fault)
  | dirStackEmpty
  deriving DecidableEq

def pwdName : List Char := "PWD".toList

def oldPwdName : List Char := "OLDPWD".toList

def sandboxHostname : List Char := "sandbox".toList

def sandboxUid : List Char := "1000".toList

/-- `wellknownvars::resynthesize_session_facts` in a confined shell. -/
def resynthesizeSessionFacts (env : ShellEnvironment) : ShellEnvironment :=
  let env := (env.add "HOSTNAME".toList (ShellVariable.new (.string sandboxHostname)).export
    .global).2
  let uid : ShellVariable :=
    { ShellVariable.new (.string sandboxUid) with treatAsInteger := true, readonly := true }
  let env := (env.add "UID".toList uid .global).2
  (env.add "EUID".toList uid .global).2

/-- A new environment after `set_global` of each variable. -/
def globalsOf (vars : List (List Char × ShellVariable)) : ShellEnvironment :=
  vars.foldl (fun env v => (env.add v.1 v.2 .global).2) ShellEnvironment.new

/-- The parts of a shell that record where it is. -/
structure DirShell [Unicode] where
  session : Session
  workingDir : OsStr
  /-- The top of the stack is last. -/
  directoryStack : List OsStr
  env : ShellEnvironment
  namespaceInstalled : Bool

namespace DirShell

variable [Unicode]

/-- `Shell::new`, with the variables that are set before `PWD`. A session that cannot start where
the shell does stays at the root. -/
def new (vfs : Vfs) (start : OsStr) (vars : List (List Char × ShellVariable)) (h : Host) :
    DirShell where
  session :=
    match ((Session.new vfs).setCwd start.toStringLossy h).1 with
    | .ok session => session
    | .error _ => .new vfs
  workingDir := start
  directoryStack := []
  env := ((globalsOf vars).add pwdName (ShellVariable.new (.string (lossyText start))).export
    .global).2
  namespaceInstalled := false

variable (s : DirShell)

/-- `Shell::absolute_path`. -/
def absolutePath (path : OsStr) : OsStr :=
  if path = [] || path.isAbsolute then path else joinPath s.workingDir path

/-- The directory an external command is started in: `to_virtual_path` of `working_dir`. -/
def commandDirectory : Except IoError VirtualPath :=
  toVirtualPath s.session (s.absolutePath s.workingDir)

variable [Casing]

/-- How `set_working_dir` assigns a variable. -/
def assignText (env : ShellEnvironment) (name text : List Char) : Attempt ShellEnvironment Unit :=
  env.updateOrAdd name (.scalar text) .skip .anywhere .global

/-- `set_working_dir`, once the session has moved. -/
def recordDirectory (s : DirShell) (cleanedPath : OsStr) : Except DirError Unit × DirShell :=
  match assignText s.env pwdName (lossyText cleanedPath) with
  | (.error e, env) => (.error (.variable e), { s with env })
  | (.ok _, env) =>
    match assignText env oldPwdName (lossyText s.workingDir) with
    | (.error e, env) => (.error (.variable e), { s with env, workingDir := cleanedPath })
    | (.ok _, env) => (.ok (), { s with env, workingDir := cleanedPath })

/-- `Shell::set_working_dir`. -/
def setWorkingDir (targetDir : OsStr) (h : Host) : Except DirError Unit × DirShell :=
  let absPath := s.absolutePath targetDir
  match toVirtualPath s.session absPath with
  | .error e => (.error (.io e), s)
  | .ok virtualPath =>
    match (s.session.vfs.facts virtualPath true h).1 with
    | .ok (some facts) =>
      if facts.isDir then
        match (s.session.setCwd virtualPath.asStr h).1 with
        | .error e => (.error (.io e), s)
        | .ok session => { s with session }.recordDirectory virtualPath.asStr
      else (.error (.notADirectory absPath), s)
    | _ => (.error (.io (notFound virtualPath)), s)

omit [Casing] in
/-- Where a new namespace is entered: at its root, or at its shallowest mount point. -/
def landing (vfs : Vfs) (h : Host) : Option VirtualPath :=
  match (vfs.exists .root h).1 with
  | .ok true => some .root
  | _ => vfs.table.mounts.getLast?.map Mount.at

/-- `Shell::set_mounts`. -/
def setMounts (vfs : Vfs) (h : Host) : DirShell :=
  let s := { s with
    session := .new vfs
    namespaceInstalled := true
    env := resynthesizeSessionFacts s.env }
  match landing vfs h with
  | some landing => (s.setWorkingDir landing.asStr h).2
  | none => s

/-- `PushdCommand::execute`. -/
def pushd (noDirectoryChange : Bool) (dir : OsStr) (h : Host) : Except DirError Unit × DirShell :=
  if noDirectoryChange then (.ok (), { s with directoryStack := s.directoryStack ++ [dir] })
  else
    match s.setWorkingDir dir h with
    | (.error e, s') => (.error e, s')
    | (.ok _, s') => (.ok (), { s' with directoryStack := s'.directoryStack ++ [s.workingDir] })

/-- `PopdCommand::execute`. -/
def popd (noDirectoryChange : Bool) (h : Host) : Except DirError Unit × DirShell :=
  match s.directoryStack.getLast? with
  | some popped =>
    let s := { s with directoryStack := s.directoryStack.dropLast }
    if noDirectoryChange then (.ok (), s) else s.setWorkingDir popped h
  | none => (.error .dirStackEmpty, s)

end DirShell

/-- An operation of the shell. What a script does to variables is any edit. -/
inductive DirStep [Unicode]
  | setMounts (vfs : Vfs)
  | setWorkingDir (targetDir : OsStr)
  | pushd (noDirectoryChange : Bool) (dir : OsStr)
  | popd (noDirectoryChange : Bool)
  /-- `dirs -c`. -/
  | clearDirs
  | edit (f : ShellEnvironment → ShellEnvironment)

section

variable [Unicode] [Casing]

/-- What an operation answers and leaves. -/
def DirStep.run (h : Host) (s : DirShell) : DirStep → Except DirError Unit × DirShell
  | .setMounts vfs => (.ok (), s.setMounts vfs h)
  | .setWorkingDir targetDir => s.setWorkingDir targetDir h
  | .pushd noDirectoryChange dir => s.pushd noDirectoryChange dir h
  | .popd noDirectoryChange => s.popd noDirectoryChange h
  | .clearDirs => (.ok (), { s with directoryStack := [] })
  | .edit f => (.ok (), { s with env := f s.env })

def runDirs (s : DirShell) (steps : List (Host × DirStep)) : DirShell :=
  steps.foldl (fun s step => (step.2.run step.1 s).2) s

end

end Seahaven.Shell
