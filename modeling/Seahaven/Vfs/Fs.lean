import Seahaven.Vfs.Locate

/-!
# Filesystem operations over the namespace

Each operation of `Vfs` is a closure run at a location (`…At` below) and the way the location is
found: `at` tries the whole path beneath its mount first and walks it with `locate` only when that
was refused or the mount shadows another; the others call `locate` themselves.
-/

namespace Seahaven.Vfs

open Host OsStr

/-! ## Open modes -/

/-- How a file is to be opened. -/
structure OpenMode where
  read : Bool
  write : Bool
  append : Bool
  create : Bool
  createNew : Bool
  truncate : Bool
  /-- Refuse a final symlink. -/
  nofollow : Bool
  /-- Do not wait for a peer when opening a FIFO. -/
  nonblock : Bool
  /-- Permission bits for a newly created inode. -/
  mode : Option Nat
  /-- Extra raw `open(2)` flags. -/
  customFlags : OFlags
  deriving DecidableEq

namespace OpenMode

/-- `OpenMode::read`. -/
def ofRead : OpenMode := ⟨true, false, false, false, false, false, false, false, none, 0⟩

/-- `OpenMode::write`. -/
def ofWrite : OpenMode := ⟨false, true, false, true, false, true, false, false, none, 0⟩

/-- `OpenMode::append`. -/
def ofAppend : OpenMode := ⟨false, false, true, true, false, false, false, false, none, 0⟩

def withRead (m : OpenMode) (yes : Bool) : OpenMode := { m with read := yes }

def withWrite (m : OpenMode) (yes : Bool) : OpenMode := { m with write := yes }

def withAppend (m : OpenMode) (yes : Bool) : OpenMode := { m with append := yes }

def withCreate (m : OpenMode) (yes : Bool) : OpenMode := { m with create := yes }

def withCreateNew (m : OpenMode) (yes : Bool) : OpenMode := { m with createNew := yes }

def withTruncate (m : OpenMode) (yes : Bool) : OpenMode := { m with truncate := yes }

def withNofollow (m : OpenMode) (yes : Bool) : OpenMode := { m with nofollow := yes }

def withNonblock (m : OpenMode) (yes : Bool) : OpenMode := { m with nonblock := yes }

def withCustomFlags (m : OpenMode) (flags : OFlags) : OpenMode := { m with customFlags := flags }

def withMode (m : OpenMode) (mode : Nat) : OpenMode := { m with mode := some mode }

def isWrite (m : OpenMode) : Bool :=
  m.write || m.append || m.create || m.createNew || m.truncate

/-- The equivalent `cap-std` options. -/
def toCapStd (m : OpenMode) : OpenOptions where
  read := m.read
  write := m.write
  append := m.append
  create := m.create
  createNew := m.createNew
  truncate := m.truncate
  customFlags := if m.nonblock then m.customFlags ||| .nonblock else m.customFlags
  mode := m.mode.getD 0o666

theorem built (m : OpenMode) : ∃ m' : OpenMode, (m' = ofRead ∨ ∃ bits, m' = ofRead.withMode bits) ∧
    m = ((((((((m'.withRead m.read).withWrite m.write).withAppend m.append).withCreate
      m.create).withCreateNew m.createNew).withTruncate m.truncate).withNofollow
      m.nofollow).withNonblock m.nonblock).withCustomFlags m.customFlags := by
  obtain ⟨r, w, a, c, n, t, nf, nb, mode, flags⟩ := m
  cases mode with
  | none => exact ⟨ofRead, Or.inl rfl, rfl⟩
  | some bits => exact ⟨ofRead.withMode bits, Or.inr ⟨bits, rfl⟩, rfl⟩

end OpenMode

/-- What a `test` predicate can ask about a path. -/
structure FileFacts where
  isDir : Bool
  isFile : Bool
  isSymlink : Bool
  len : Nat
  isBlockDevice : Bool
  isCharDevice : Bool
  isFifo : Bool
  isSocket : Bool
  isSetuid : Bool
  isSetgid : Bool
  isSticky : Bool
  uidGid : Nat × Nat
  devIno : Option (Nat × Nat)
  deriving DecidableEq

/-- `FileFacts::from_metadata`. -/
def FileFacts.ofMetadata (m : Metadata) : FileFacts where
  isDir := m.isDir
  isFile := m.isFile
  isSymlink := m.isSymlink
  len := m.len
  isBlockDevice := m.kind = .special .blockDevice
  isCharDevice := m.kind = .special .charDevice
  isFifo := m.kind = .special .fifo
  isSocket := m.kind = .special .socket
  isSetuid := m.attr.mode &&& 0o4000 ≠ 0
  isSetgid := m.attr.mode &&& 0o2000 ≠ 0
  isSticky := m.attr.mode &&& 0o1000 ≠ 0
  uidGid := (m.attr.uid, m.attr.gid)
  devIno := some (m.dev, m.ino)

/-! ## Stored targets -/

/-- Whether the components, followed from a directory this deep in the mount, stay in it. -/
def staysFrom (depth : Nat) : List OsStr → Bool
  | [] => true
  | c :: rest =>
    if c = [] ∨ c = dot then staysFrom depth rest
    else if c = dotdot then
      match depth with
      | 0 => false
      | depth + 1 => staysFrom depth rest
    else staysFrom (depth + 1) rest

/-- Whether `stored`, followed from the directory holding the link, stays within the mount, as the
host would follow it. -/
def storedTargetStaysInMount (link : List OsStr) (stored : OsStr) : Bool :=
  !stored.isAbsolute && staysFrom link.dropLast.length stored.split

def sharedLength : List OsStr → List OsStr → Nat
  | a :: as, b :: bs => if a = b then sharedLength as bs + 1 else 0
  | _, _ => 0

/-- Expresses `target` relative to the directory holding `link`, both given relative to one mount's
root. -/
def relativeFrom (link target : List OsStr) : OsStr :=
  let linkDir := link.dropLast
  let shared := sharedLength linkDir target
  let parts := List.replicate (linkDir.length - shared) dotdot ++ target.drop shared
  if parts = [] then dot else join parts

variable [Unicode]

/-! ## Operations at a location -/

def requireWritable (l : Located) : Except IoError Unit :=
  if l.mount.access.isWritable then .ok () else .error (readOnly l.virtualPath)

def writing {α : Type} (f : Located → Op Host IoError α) (l : Located) : Op Host IoError α :=
  .check (requireWritable l) >>= fun () => f l

def openAt (mode : OpenMode) (l : Located) : Op Host IoError File :=
  if !l.mount.access.isWritable && mode.isWrite then .check (.error (readOnly l.virtualPath))
  else l.mount.dir.openWith l.relative mode.toCapStd

def metadataAt (l : Located) : Op Host IoError Metadata :=
  if l.relative = [] then .read fun h => .ok (l.mount.dir.dirMetadata h)
  else do
    let m ← Op.read (l.mount.dir.metadata l.relative)
    if m.isDir then do
      let d ← Op.read (l.mount.dir.openDir l.relative)
      .read fun h => .ok (d.dirMetadata h)
    else do
      let f ← l.mount.dir.openWith l.relative (OpenMode.ofRead.withNonblock true).toCapStd
      .read fun h => .ok (f.metadata h)

def accessAt (modes : AccessModes) (l : Located) : Op Host IoError Unit :=
  if modes.writable && !l.mount.access.isWritable then .check (.error (readOnly l.virtualPath))
  else .read (l.mount.dir.access l.relative modes)

def factsAt (follow : Bool) (l : Located) : Op Host IoError FileFacts :=
  .read fun h =>
    if l.relative = [] then .ok (.ofMetadata (l.mount.dir.dirMetadata h))
    else if follow then (l.mount.dir.metadata l.relative h).map .ofMetadata
    else (l.mount.dir.symlinkMetadata l.relative h).map .ofMetadata

def readLinkAt (l : Located) : Op Host IoError OsStr :=
  .read (l.mount.dir.readLinkContents l.relative)

def dirAt (l : Located) (h : Host) : Except IoError CapDir :=
  if l.relative = [] then .ok l.mount.dir else l.mount.dir.openDir l.relative h

def readDirNamesAt (l : Located) : Op Host IoError (List OsStr) := do
  let dir ← Op.read (dirAt l)
  .read fun h => (dir.entries h).map fun names => names.filter isUtf8

def createDirAt (mode : Nat) : Located → Op Host IoError Unit :=
  writing fun l => l.mount.dir.createDir mode l.relative

def createDirAllAt (mode : Nat) : Located → Op Host IoError Unit :=
  writing fun l => l.mount.dir.createDirAll mode l.relative

def removeFileAt : Located → Op Host IoError Unit :=
  writing fun l => l.mount.dir.removeFile l.relative

def removeDirAt : Located → Op Host IoError Unit :=
  writing fun l => l.mount.dir.removeDir l.relative

def removeDirAllAt : Located → Op Host IoError Unit :=
  writing fun l => l.mount.dir.removeDirAll l.relative

def setTimesAt (atime mtime : Int) (follow : Bool) : Located → Op Host IoError Unit :=
  writing fun l => l.mount.dir.setTimes follow l.relative atime mtime

def setPermissionsAt (mode : Nat) : Located → Op Host IoError Unit :=
  writing fun l => l.mount.dir.setPermissions l.relative mode

variable (v : Vfs) {α : Type}

/-! ## Operations -/

/-- Runs `op` where the component-by-component walk leads. -/
def careful (path : VirtualPath) (followFinal : Bool) (op : Located → Op Host IoError α) :
    Op Host IoError α := .read (v.locate path followFinal) >>= op

/-- Runs `op` at the location `path` names. -/
def «at» (path : VirtualPath) (followFinal : Bool) (op : Located → Op Host IoError α) :
    Op Host IoError α :=
  .check (v.locateExact path) >>= fun direct =>
    if direct.mount.shadowsNested then v.careful path followFinal op
    else (op direct).attempt >>= fun
      | .ok a => pure a
      | .error e =>
        if e.kind = .permissionDenied then v.careful path followFinal op else .check (.error e)

def orNone (x : Op Host IoError α) : Op Host IoError (Option α) :=
  x.attempt >>= fun r => pure r.toOption

def facts (path : VirtualPath) (follow : Bool) : Op Host IoError (Option FileFacts) :=
  orNone (v.at path follow (factsAt follow))

def «exists» (path : VirtualPath) : Op Host IoError Bool :=
  v.facts path true >>= fun f => pure f.isSome

def isSymlink (path : VirtualPath) : Op Host IoError Bool :=
  v.facts path false >>= fun f => pure (f.any FileFacts.isSymlink)

def refusesLink (path : VirtualPath) (mode : OpenMode) : Op Host IoError Bool :=
  if mode.nofollow then v.isSymlink path else pure false

def openWith (path : VirtualPath) (mode : OpenMode) : Op Host IoError File :=
  v.refusesLink path mode >>= fun refused =>
    if refused then .check (.error (.os .loop)) else v.at path true (openAt mode)

def metadata (path : VirtualPath) : Op Host IoError Metadata := v.at path true metadataAt

/-- `fstat`s a single directory entry without following it if it is a symlink. -/
def symlinkMetadataAt (parent : CapDir) (name : OsStr) (h : Host) : Except IoError Metadata :=
  if .chr '\x00' ∈ name then
    .error (.custom .invalidInput (os "directory entry name contains an interior NUL"))
  else parent.symlinkMetadata [name] h

/-- `symlink_metadata`, by way of the parent's handle. -/
def symlinkMetadata (path : VirtualPath) (h : Host) : Except IoError Metadata := do
  let l ← v.locate path false h
  match l.relative.getLast? with
  | none => .ok (l.mount.dir.dirMetadata h)
  | some name =>
    if l.relative.dropLast = [] then symlinkMetadataAt l.mount.dir name h
    else do
      let parent ← l.mount.dir.openDir l.relative.dropLast h
      symlinkMetadataAt parent name h

def access (path : VirtualPath) (modes : AccessModes) : Op Host IoError Bool :=
  orNone (v.at path true (accessAt modes)) >>= fun r => pure r.isSome

def canonicalize (path : VirtualPath) (h : Host) : Except IoError VirtualPath :=
  (v.locateFollow path h).map Located.virtualPath

/-- The host path of the file `path` names. -/
def hostPath (path : VirtualPath) (h : Host) : Except IoError HostPath := do
  let l ← v.locateFollow path h
  match l.mount.canonicalHostPath with
  | some root => .ok (root ++ l.relative)
  | none => .error (.custom .invalidInput
      (os "this namespace was received as capabilities and has no host paths"))

def readLink (path : VirtualPath) : Op Host IoError OsStr := v.at path false readLinkAt

def readDirNames (path : VirtualPath) : Op Host IoError (List OsStr) :=
  v.at path true readDirNamesAt

def createDirAll (path : VirtualPath) : Op Host IoError Unit :=
  v.at path false (createDirAllAt 0o777)

def createDir (path : VirtualPath) : Op Host IoError Unit := v.at path false (createDirAt 0o777)

def createDirWithMode (path : VirtualPath) (mode : Nat) (recursive : Bool) :
    Op Host IoError Unit :=
  v.at path false (if recursive then createDirAllAt mode else createDirAt mode)

def removeFile (path : VirtualPath) : Op Host IoError Unit := v.at path false removeFileAt

def removeDir (path : VirtualPath) : Op Host IoError Unit := v.at path false removeDirAt

def removeDirAll (path : VirtualPath) : Op Host IoError Unit := v.at path false removeDirAllAt

/-- The location is found without following a final link, whether or not the call follows it. -/
def setTimes (path : VirtualPath) (atime mtime : Int) (follow : Bool) : Op Host IoError Unit :=
  v.at path false (setTimesAt atime mtime follow)

def setPermissions (path : VirtualPath) (mode : Nat) : Op Host IoError Unit :=
  v.at path true (setPermissionsAt mode)

/-- The check of `rename` on a link it moves. -/
def movedLinkStays (src dst : Located) (h : Host) : Except IoError Unit :=
  match src.mount.dir.symlinkMetadata src.relative h with
  | .error _ => .ok ()
  | .ok m =>
    if m.isSymlink then do
      let stored ← src.mount.dir.readLinkContents src.relative h
      if stored.isUtf8 = false then
        .error (.custom .invalidData
          (os "the link being moved has a target that is not valid UTF-8"))
      else if storedTargetStaysInMount dst.relative stored then .ok ()
      else .error (.custom .invalidInput
        (os "moving this link would point " ++ stored ++ os " out of the mount"))
    else .ok ()

def rename (src dst : VirtualPath) : Op Host IoError Unit := do
  let src ← Op.read (v.locate src false)
  let dst ← Op.read (v.locate dst false)
  if src.mount.at ≠ dst.mount.at then
    .check (.error (.custom .crossesDevices (os "rename across a mount boundary: " ++
      src.virtualPath.asStr ++ os " to " ++ dst.virtualPath.asStr)))
  else do
    Op.check (requireWritable src)
    Op.check (requireWritable dst)
    Op.read (movedLinkStays src dst)
    src.mount.dir.rename src.relative dst.relative

def copy (src dst : VirtualPath) : Op Host IoError Nat := do
  let src ← Op.read (v.locateFollow src)
  let dst ← Op.read (v.locate dst false)
  Op.check (requireWritable dst)
  src.mount.dir.copy src.relative dst.mount.dir dst.relative

def hardLink (original link : VirtualPath) : Op Host IoError Unit := do
  let original ← Op.read (v.locate original false)
  let link ← Op.read (v.locate link false)
  if original.mount.at ≠ link.mount.at then
    .check (.error (.custom .crossesDevices (os "hard link across a mount boundary: " ++
      original.virtualPath.asStr ++ os " to " ++ link.virtualPath.asStr)))
  else do
    Op.check (requireWritable link)
    original.mount.dir.hardLink original.relative link.relative

/-- What `symlink` stores for `target` in a link at `link`, or why it refuses to. -/
def storedTarget (link : Located) (target : OsStr) (h : Host) : Except IoError OsStr :=
  match (link.virtualPath.parent.getD .root).resolve target with
  | .error e => .error (invalidPath e)
  | .ok landing => do
    let lexical ← v.locateExact landing
    if lexical.mount.at ≠ link.mount.at then
      .error (.custom .invalidInput
        (os "symlink target " ++ landing.asStr ++ os " is in another mount"))
    else do
      let followed ← v.locate landing true h
      if followed.mount.at ≠ link.mount.at then
        .error (.custom .invalidInput
          (os "symlink target " ++ landing.asStr ++ os " leads out of the mount"))
      else
        let stored := relativeFrom link.relative lexical.relative
        if storedTargetStaysInMount link.relative stored then .ok stored
        else .error (.custom .invalidInput
          (os "symlink target " ++ landing.asStr ++ os " leaves the mount when followed"))

/-- Creates a symbolic link at `path` pointing at `target`. -/
def symlink (path : VirtualPath) (target : OsStr) : Op Host IoError Unit := do
  let link ← Op.read (v.locate path false)
  Op.check (requireWritable link)
  let stored ← Op.read (v.storedTarget link target)
  link.mount.dir.symlink stored link.relative

/-- Resolves `path` and opens it as a directory handle, with whether its mount permits writes. -/
def locateDir (path : VirtualPath) (h : Host) : Except IoError (CapDir × Bool) := do
  let l ← v.locateFollow path h
  let dir ← dirAt l h
  .ok (dir, l.mount.access.isWritable)

end Seahaven.Vfs
