import Seahaven.Vfs.Clobber
import Seahaven.Vfs.Session
import Seahaven.Shell.Command
import Seahaven.Shell.OpenFiles

/-!
# Redirections

1. `Opened`, `World`: what a file of the shell is open on, and what a redirection acts on.
2. `Shell.openFile`: opening a path for a command.
3. `setupRedirect`: one item of a list of redirections; `setupRedirects`: the list.

Expanding words, making scratch files and pipes, and starting the command of a process substitution
are parameters (`Around`). None of them is handed the descriptors to change.
-/

namespace Seahaven.Shell

open Vfs Host Op

/-! ## Open files -/

/-- What an open file was opened on. -/
inductive FileObject
  | named (file : File)
  | null
  /-- An unnamed file of these contents. -/
  | scratch (contents : OsStr)
  | pipe
  | other
  deriving DecidableEq

/-- An open file, told apart from others on the same object by its number. -/
structure Opened where
  serial : Nat
  object : FileObject
  deriving DecidableEq

/-- What redirections act on. `E` is what else of the shell the words expanded may change. -/
structure World (E : Type) where
  env : E
  host : Host
  /-- How many files have been opened. -/
  opened : Nat

/-- The errors of a redirection. -/
inductive RedirectError
  | invalidRedirection
  | redirectionFailure (path message : OsStr)
  | badFileDescriptor (fd : ShellFd)
  | unimplemented (message : OsStr)
  | around (message : OsStr)
  deriving DecidableEq

/-- A word of the program. -/
structure Word where
  value : OsStr
  deriving DecidableEq

/-- The code around redirections. -/
structure Around (E C : Type) where
  fullExpandAndSplitWord : ExecutionParameters Opened → Word → Op (E × Host) RedirectError (List OsStr)
  basicExpandHeredocWord : ExecutionParameters Opened → Word → Op (E × Host) RedirectError OsStr
  basicExpandWord : ExecutionParameters Opened → Word → Op (E × Host) RedirectError OsStr
  /-- Makes an unnamed file of these contents. -/
  tempfile : OsStr → Op (E × Host) RedirectError Unit
  /-- Makes a pipe. -/
  pipe : Op (E × Host) RedirectError Unit
  /-- Starts a command beside the shell, with the open files it is given. -/
  spawn : ExecutionParameters Opened → C → E × Host → E × Host

section Lift

variable {E α : Type}

def onOuter (x : Op (E × Host) RedirectError α) : Op (World E) RedirectError α := fun w =>
  match x (w.env, w.host) with
  | (r, env, host) => (r, { w with env, host })

def onHost {ε : Type} (x : Op Host ε α) : Op (World E) ε α := fun w =>
  match x w.host with
  | (r, host) => (r, { w with host })

def mapErr {ε ε' : Type} (f : ε → ε') (x : Op (World E) ε α) : Op (World E) ε' α := fun w =>
  match x w with
  | (r, w') => (r.mapError f, w')

def newFile {ε : Type} (object : FileObject) : Op (World E) ε Opened := fun w =>
  (.ok ⟨w.opened, object⟩, { w with opened := w.opened + 1 })

end Lift

/-! ## Paths -/

def decimal (s : OsStr) : Option Nat :=
  s.foldlM (fun n c =>
    match c with
    | .chr d => if d.isDigit then some (10 * n + (d.toNat - '0'.toNat)) else none
    | .raw _ => none) 0

/-- `str::parse::<i32>`. -/
def parseFd (s : OsStr) : Option ShellFd :=
  match s with
  | [] | [.chr '+'] | [.chr '-'] => none
  | .chr '-' :: rest => (decimal rest).bind fun n => if n ≤ 2 ^ 31 then some (-n) else none
  | .chr '+' :: rest => (decimal rest).bind fun n => if n < 2 ^ 31 then some (n : Int) else none
  | s => (decimal s).bind fun n => if n < 2 ^ 31 then some (n : Int) else none

/-- `c.is_ascii_digit()` of every character. -/
def allDigits (s : OsStr) : Bool :=
  s.all fun
    | .chr c => c.isDigit
    | .raw _ => false

def shellFdPathToFd (path : OsStr) : Option ShellFd :=
  if !path.isUtf8 then none
  else if path = os "/dev/stdin" then some OpenFiles.stdinFd
  else if path = os "/dev/stdout" then some OpenFiles.stdoutFd
  else if path = os "/dev/stderr" then some OpenFiles.stderrFd
  else
    match pathComponents path with
    | [root, dev, fd, name] =>
      if [root, dev, fd] = pathComponents (os "/dev/fd") ∧ name ≠ OsStr.dotdot then parseFd name
      else none
    | _ => none

/-- `sys::fs::is_null_device_path`. -/
def isNullDevicePath (path : OsStr) : Bool := samePath path (os "/dev/null")

/-- `s.split_once(":/")`. -/
def splitDrive : OsStr → Option (OsStr × OsStr)
  | .chr ':' :: .chr '/' :: rest => some ([], rest)
  | c :: rest => (splitDrive rest).map fun (before, after) => (c :: before, after)
  | [] => none

variable [Unicode]

/-- `namespace::to_virtual_path`. -/
def toVirtualPath (session : Session) (path : OsStr) : Except IoError VirtualPath :=
  let text := path.toStringLossy.map fun c => if c = .chr '\\' then OsStr.slash else c
  let text :=
    match splitDrive text with
    | some (before, rest) => if before.bytes.length = 1 then OsStr.slash :: rest else text
    | none => text
  (session.resolve text).mapError invalidPath

/-- The parts of a shell that redirections read. -/
structure RedirectShell where
  openFiles : OpenFiles Opened
  /-- `noclobber`. -/
  disallowOverwritingRegularFiles : Bool
  workingDir : OsStr
  absolute : workingDir.isAbsolute = true
  session : Session
  /-- The number of the process's open file on the null device, or why it has none. -/
  nullFile : Except OsStr Nat
  /-- What the process was started with as standard input, output and error. -/
  started : FileObject × FileObject × FileObject

namespace RedirectShell

variable (shell : RedirectShell)

/-- `Shell::absolute_path`. -/
def absolutePath (path : OsStr) : OsStr :=
  if path = [] || path.isAbsolute then path else joinPath shell.workingDir path

/-- `Shell::open_file`. -/
def openFile {E : Type} (mode : OpenMode) (path : OsStr) (params : ExecutionParameters Opened) :
    Op (World E) IoError (OpenFile Opened) :=
  if isNullDevicePath path then
    match shell.nullFile with
    | .ok serial => pure (.file ⟨serial, .null⟩)
    | .error message => .check (.error (.custom .other message))
  else
    let pathToOpen := shell.absolutePath path
    match shellFdPathToFd pathToOpen with
    | some fd =>
      match params.tryFd shell.openFiles fd with
      | some f => pure f
      | none => .check (.error (.custom .notFound (os "no such file or directory: " ++ pathToOpen)))
    | none => do
      let virtualPath ← .check (toVirtualPath shell.session pathToOpen)
      let file ← onHost (shell.session.vfs.openWith virtualPath mode)
      let opened ← newFile (.named file)
      pure (.file opened)

end RedirectShell

/-! ## Redirections -/

inductive IoFileRedirectKind
  | read
  | write
  | append
  | readAndWrite
  | clobber
  | duplicateInput
  | duplicateOutput
  deriving DecidableEq

/-- `get_default_fd_for_redirect_kind`. -/
def defaultFdForRedirectKind : IoFileRedirectKind → ShellFd
  | .read => 0
  | .write => 1
  | .append => 1
  | .readAndWrite => 0
  | .clobber => 1
  | .duplicateInput => 0
  | .duplicateOutput => 1

inductive ProcessSubstitutionKind
  | read
  | write
  deriving DecidableEq

/-- `IoFileRedirectTarget`. `C` is a command. -/
inductive IoFileRedirectTarget (C : Type)
  | filename (word : Word)
  | fd (fd : ShellFd)
  | processSubstitution (kind : ProcessSubstitutionKind) (command : C)
  | duplicate (word : Word)

structure IoHereDocument where
  requiresExpansion : Bool
  doc : Word

inductive IoRedirect (C : Type)
  | file (fd : Option ShellFd) (kind : IoFileRedirectKind) (target : IoFileRedirectTarget C)
  | hereDocument (fd : Option ShellFd) (doc : IoHereDocument)
  | hereString (fd : Option ShellFd) (word : Word)
  | outputAndError (word : Word) (append : Bool)

section Setup

variable {E C : Type} (x : Around E C) (shell : RedirectShell) (params : ExecutionParameters Opened)

def expandedField (word : Word) : Op (World E) RedirectError OsStr := do
  let fields ← onOuter (x.fullExpandAndSplitWord params word)
  match fields with
  | [field] => pure field
  | _ => .check (.error .invalidRedirection)

/-- `open_file`, with the error of a redirection. -/
def openForRedirect (mode : OpenMode) (path : OsStr) :
    Op (World E) RedirectError (OpenFile Opened) :=
  mapErr (fun e => .redirectionFailure path.toStringLossy e.toStr) (shell.openFile mode path params)

/-- Whether `>` finds a regular file in its way. -/
def isRegularFile (path : OsStr) : Op (World E) RedirectError Bool :=
  match toVirtualPath shell.session path with
  | .error _ => pure false
  | .ok p => mapErr (fun e => .around e.toStr) (onHost (shell.session.vfs.facts p true)) >>= fun
      | some facts => pure facts.isFile
      | none => pure false

/-- How a kind of redirection opens its file. -/
def modeFor (path : OsStr) : IoFileRedirectKind → Op (World E) RedirectError OpenMode
  | .read => pure (OpenMode.default.withRead true)
  | .write =>
    if shell.disallowOverwritingRegularFiles then
      isRegularFile shell path >>= fun isFile => pure (guardedMode isFile)
    else pure (((OpenMode.default.withCreate true).withWrite true).withTruncate true)
  | .append => pure ((OpenMode.default.withCreate true).withAppend true)
  | .readAndWrite => pure (((OpenMode.default.withCreate true).withRead true).withWrite true)
  | .clobber => pure (((OpenMode.default.withCreate true).withWrite true).withTruncate true)
  | .duplicateInput => pure (OpenMode.default.withRead true)
  | .duplicateOutput => pure ((OpenMode.default.withCreate true).withWrite true)

def redirectPath (word : Word) : Op (World E) RedirectError OsStr :=
  expandedField x params word >>= fun field => pure (shell.absolutePath field)

/-- A file redirection to a word. -/
def setupFilename (fd : Option ShellFd) (kind : IoFileRedirectKind) (word : Word) :
    Op (World E) RedirectError (ExecutionParameters Opened) := do
  let path ← redirectPath x shell params word
  let mode ← modeFor shell path kind
  let file ← openForRedirect shell params mode path
  pure (params.setFd (fd.getD (defaultFdForRedirectKind kind)) file)

def duplicateFd (fd : Option ShellFd) : IoFileRedirectKind → Op (World E) RedirectError ShellFd
  | .duplicateInput => pure (fd.getD 0)
  | .duplicateOutput => pure (fd.getD 1)
  | _ => .check (.error (.unimplemented (os "unexpected redirect kind")))

def sourceFile (fd : ShellFd) : Op (World E) RedirectError (OpenFile Opened) :=
  match params.tryFd shell.openFiles fd with
  | some f => pure f
  | none => .check (.error (.badFileDescriptor fd))

def setupFd (fd : Option ShellFd) (kind : IoFileRedirectKind) (source : ShellFd) :
    Op (World E) RedirectError (ExecutionParameters Opened) := do
  let fdNum ← duplicateFd fd kind
  let file ← sourceFile shell params source
  pure (params.setFd fdNum file)

/-- The mode of `&>` and `&>>`. -/
def outputMode (append : Bool) : OpenMode :=
  (((OpenMode.default.withCreate true).withWrite true).withTruncate !append).withAppend append

def setupRedirectOutputAndErrorTo (filePath : OsStr) (append : Bool) :
    Op (World E) RedirectError (ExecutionParameters Opened) := do
  let file ← openForRedirect shell params (outputMode append) (shell.absolutePath filePath)
  pure ((params.setFd OpenFiles.stdoutFd file).setFd OpenFiles.stderrFd file)

/-- What a word after `>&` or `<&` says, without its dash, and whether it had one. -/
def stripDash (expanded : OsStr) : OsStr × Bool :=
  if expanded.getLast? = some (.chr '-') then (expanded.dropLast, true) else (expanded, false)

/-- Duplicates what a word says, its dash apart. -/
def duplicateWord (fdNum : ShellFd) (dash : Bool) (expanded : OsStr) :
    Op (World E) RedirectError (ExecutionParameters Opened) :=
  if expanded = [] then pure params
  else if allDigits expanded then
    match parseFd expanded with
    | none => .check (.error .invalidRedirection)
    | some source => do
      let file ← sourceFile shell params source
      pure (params.setFd fdNum file)
  else if fdNum = 1 ∧ dash = false then setupRedirectOutputAndErrorTo shell params expanded false
  else .check (.error .invalidRedirection)

/-- A duplication of what a word says. -/
def setupDuplicate (fd : Option ShellFd) (kind : IoFileRedirectKind) (word : Word) :
    Op (World E) RedirectError (ExecutionParameters Opened) := do
  let fdNum ← duplicateFd fd kind
  let expanded ← expandedField x params word
  let params ← duplicateWord shell params fdNum (stripDash expanded).2 (stripDash expanded).1
  -- the number closed is the one duplicated to
  pure (if (stripDash expanded).2 then params.removeFd fdNum else params)

/-- The first number from `candidate` down that the command's own table does not have. -/
def freeFd : Nat → Option Nat
  | 0 => none
  | candidate + 1 =>
    if params.openFiles.containsFd (candidate + 1 : Nat) then freeFd candidate
    else some (candidate + 1)

def setupProcessSubstitution (kind : ProcessSubstitutionKind) (command : C) :
    Op (World E) RedirectError (ShellFd × OpenFile Opened) := do
  onOuter x.pipe
  let reader ← newFile .pipe
  let writer ← newFile .pipe
  let (childParams, targetFile) :=
    match kind with
    | .read => (params.setFd OpenFiles.stdoutFd (.pipeWriter writer), OpenFile.pipeReader reader)
    | .write => (params.setFd OpenFiles.stdinFd (.pipeReader reader), OpenFile.pipeWriter writer)
  onOuter fun s => (.ok (), x.spawn childParams command s)
  match freeFd params 63 with
  | some candidate => pure ((candidate : Int), targetFile)
  | none => .check (.error (.unimplemented (os "no available file descriptors")))

/-- A redirection to a process substitution. -/
def setupSubstitution (fd : Option ShellFd) (kind : IoFileRedirectKind)
    (substitution : ProcessSubstitutionKind) (command : C) :
    Op (World E) RedirectError (ExecutionParameters Opened) :=
  match kind with
  | .read | .write | .append | .readAndWrite | .clobber => do
    let (substitutionFd, file) ← setupProcessSubstitution x params substitution command
    pure ((params.setFd substitutionFd file).setFd (fd.getD (defaultFdForRedirectKind kind)) file)
  | _ => .check (.error (.unimplemented (os "invalid process substitution")))

def setupOpenFileWithContents (contents : OsStr) :
    Op (World E) RedirectError (OpenFile Opened) := do
  onOuter (x.tempfile contents)
  let opened ← newFile (.scratch contents)
  pure (.file opened)

def hereContents (doc : IoHereDocument) : Op (World E) RedirectError OsStr :=
  if doc.requiresExpansion then onOuter (x.basicExpandHeredocWord params doc.doc)
  else pure doc.doc.value

def setupRedirect : IoRedirect C → Op (World E) RedirectError (ExecutionParameters Opened)
  | .outputAndError word append => do
    let path ← expandedField x params word
    setupRedirectOutputAndErrorTo shell params path append
  | .file fd kind (.filename word) => setupFilename x shell params fd kind word
  | .file fd kind (.fd source) => setupFd shell params fd kind source
  | .file fd kind (.duplicate word) => setupDuplicate x shell params fd kind word
  | .file fd kind (.processSubstitution substitution command) =>
    setupSubstitution x params fd kind substitution command
  | .hereDocument fd doc => do
    let contents ← hereContents x params doc
    let file ← setupOpenFileWithContents x contents
    pure (params.setFd (fd.getD 0) file)
  | .hereString fd word => do
    let contents ← onOuter (x.basicExpandWord params word)
    let file ← setupOpenFileWithContents x (contents ++ [.chr '\n'])
    pure (params.setFd (fd.getD 0) file)

def setupRedirects (params : ExecutionParameters Opened) :
    List (IoRedirect C) → Op (World E) RedirectError (ExecutionParameters Opened)
  | [] => pure params
  | r :: rs => setupRedirect x shell params r >>= fun params => setupRedirects params rs

end Setup

end Seahaven.Shell
