import Seahaven.Vfs.Fs

/-!
# Directory capabilities and whole sessions

A `Dir` is a directory handle with the write permission of the mount it was opened in, and every
operation of it names a single component. A session is a host with the capabilities a program holds
on it; its requests are the operations of `Vfs` and of those capabilities.
-/

namespace Seahaven.Vfs

open Host OsStr

variable [Unicode]

/-- A directory inside the namespace, usable for `*at`-style operations. -/
structure Dir where
  inner : CapDir
  /-- Whether the mount this descends from allows writes. -/
  writable : Bool
  deriving DecidableEq

/-- What makes two directory entries the same file, and two files the same filesystem. -/
structure FileIdentity where
  device : Nat
  file : Nat
  deriving DecidableEq

def component (name : OsStr) : Except IoError OsStr :=
  if name = [] ∨ name = dot ∨ name = dotdot ∨ slash ∈ name ∨ .chr '\\' ∈ name then
    .error (.custom .invalidInput (os "not a single path component: " ++ Unicode.debug name))
  else .ok name

namespace Dir

variable (d : Dir) {α : Type}

def readOnly : IoError := .custom .permissionDenied (os "read-only mount")

def openDir (name : OsStr) (h : Host) : Except IoError Dir :=
  component name >>= fun name => (d.inner.openDir [name] h).map fun inner => ⟨inner, d.writable⟩

def openFile (name : OsStr) (mode : OpenMode) : Op Host IoError File :=
  .check (component name) >>= fun name =>
    if mode.isWrite && !d.writable then .check (.error readOnly)
    else d.inner.openWith [name] mode.toCapStd

/-- Metadata for an entry, following a final symlink. -/
def metadata (name : OsStr) : Op Host IoError Metadata := do
  let name ← Op.check (component name)
  let m ← Op.read (d.inner.metadata [name])
  if m.isDir then do
    let sub ← Op.read (d.inner.openDir [name])
    .read fun h => .ok (sub.dirMetadata h)
  else do
    let f ← d.inner.openWith [name] (OpenMode.ofRead.withNonblock true).toCapStd
    .read fun h => .ok (f.metadata h)

def symlinkMetadata (name : OsStr) (h : Host) : Except IoError Metadata :=
  component name >>= fun name => symlinkMetadataAt d.inner name h

def identity : FileIdentity := ⟨d.inner.tree, d.inner.ino⟩

def selfMetadata (h : Host) : Metadata := d.inner.dirMetadata h

def «exists» (name : OsStr) (h : Host) : Bool :=
  match component name with
  | .ok name => (d.inner.metadata [name] h).isOk
  | .error _ => false

def entryNames (h : Host) : Except IoError (List OsStr) :=
  (d.inner.entries h).map fun names => names.filter isUtf8

/-- The operations that change an entry: the name, then the permission, then the call. -/
def writing (name : OsStr) (f : OsStr → Op Host IoError α) : Op Host IoError α :=
  .check (component name) >>= fun name =>
    if !d.writable then .check (.error readOnly) else f name

def createDir (name : OsStr) : Op Host IoError Unit :=
  d.writing name fun name => d.inner.createDir 0o777 [name]

def removeFile (name : OsStr) : Op Host IoError Unit :=
  d.writing name fun name => d.inner.removeFile [name]

def removeDir (name : OsStr) : Op Host IoError Unit :=
  d.writing name fun name => d.inner.removeDir [name]

def setPermissions (name : OsStr) (mode : Nat) : Op Host IoError Unit :=
  d.writing name fun name => d.inner.setPermissions [name] mode

end Dir

def openDir (v : Vfs) (path : VirtualPath) (h : Host) : Except IoError Dir :=
  (v.locateDir path h).map fun (inner, writable) => ⟨inner, writable⟩

/-! ## Sessions -/

/-- An operation of a capability. -/
inductive DirRequest
  | openDir (name : OsStr)
  | openFile (name : OsStr) (mode : OpenMode)
  | metadata (name : OsStr)
  | symlinkMetadata (name : OsStr)
  | entryNames
  | createDir (name : OsStr)
  | removeFile (name : OsStr)
  | removeDir (name : OsStr)
  | setPermissions (name : OsStr) (mode : Nat)

/-- An operation a program can ask for. A capability is named by its place among those it holds. -/
inductive Request
  | openWith (path : VirtualPath) (mode : OpenMode)
  | metadata (path : VirtualPath)
  | symlinkMetadata (path : VirtualPath)
  | facts (path : VirtualPath) (follow : Bool)
  | access (path : VirtualPath) (modes : AccessModes)
  | canonicalize (path : VirtualPath)
  | readLink (path : VirtualPath)
  | readDirNames (path : VirtualPath)
  | createDir (path : VirtualPath)
  | createDirAll (path : VirtualPath)
  | createDirWithMode (path : VirtualPath) (mode : Nat) (recursive : Bool)
  | removeFile (path : VirtualPath)
  | removeDir (path : VirtualPath)
  | removeDirAll (path : VirtualPath)
  | rename (src dst : VirtualPath)
  | copy (src dst : VirtualPath)
  | hardLink (original link : VirtualPath)
  | symlink (path : VirtualPath) (target : OsStr)
  | setTimes (path : VirtualPath) (atime mtime : Int) (follow : Bool)
  | setPermissions (path : VirtualPath) (mode : Nat)
  | openDir (path : VirtualPath)
  | dir (index : Nat) (request : DirRequest)

/-- A host, and the capabilities held on it. -/
structure Session where
  host : Host
  dirs : List Dir

def silent {α : Type} (x : Op Host IoError α) : Op Host IoError (List Dir) := x >>= fun _ => pure []

/-- What a request on a capability does, with the capability it adds. -/
def DirRequest.perform (d : Dir) : DirRequest → Op Host IoError (List Dir)
  | openDir name => .read fun h => (d.openDir name h).map fun d => [d]
  | openFile name mode => silent (d.openFile name mode)
  | metadata name => silent (d.metadata name)
  | symlinkMetadata name => silent (.read (d.symlinkMetadata name))
  | entryNames => silent (.read d.entryNames)
  | createDir name => silent (d.createDir name)
  | removeFile name => silent (d.removeFile name)
  | removeDir name => silent (d.removeDir name)
  | setPermissions name mode => silent (d.setPermissions name mode)

/-- What a request does, with the capabilities it adds. -/
def Request.perform (v : Vfs) (dirs : List Dir) : Request → Op Host IoError (List Dir)
  | openWith path mode => silent (v.openWith path mode)
  | metadata path => silent (v.metadata path)
  | symlinkMetadata path => silent (.read (v.symlinkMetadata path))
  | facts path follow => silent (v.facts path follow)
  | access path modes => silent (v.access path modes)
  | canonicalize path => silent (.read (v.canonicalize path))
  | readLink path => silent (v.readLink path)
  | readDirNames path => silent (v.readDirNames path)
  | createDir path => silent (v.createDir path)
  | createDirAll path => silent (v.createDirAll path)
  | createDirWithMode path mode recursive => silent (v.createDirWithMode path mode recursive)
  | removeFile path => silent (v.removeFile path)
  | removeDir path => silent (v.removeDir path)
  | removeDirAll path => silent (v.removeDirAll path)
  | rename src dst => silent (v.rename src dst)
  | copy src dst => silent (v.copy src dst)
  | hardLink original link => silent (v.hardLink original link)
  | symlink path target => silent (v.symlink path target)
  | setTimes path atime mtime follow => silent (v.setTimes path atime mtime follow)
  | setPermissions path mode => silent (v.setPermissions path mode)
  | openDir path => .read fun h => (v.openDir path h).map fun d => [d]
  | dir index request =>
    match dirs[index]? with
    | some d => request.perform d
    | none => pure []

def step (v : Vfs) (s : Session) (r : Request) : Session :=
  match r.perform v s.dirs s.host with
  | (.ok new, h) => ⟨h, s.dirs ++ new⟩
  | (.error _, h) => ⟨h, s.dirs⟩

theorem host_step {v : Vfs} (s : Session) (r : Request) :
    (step v s r).host = (r.perform v s.dirs s.host).2 := by
  unfold step
  split <;> rename_i hr <;> rw [hr]

end Seahaven.Vfs
