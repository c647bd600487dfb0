import Seahaven.Host.Cap
import Seahaven.Vfs.Mount

/-!
# Resolution over the namespace

`Vfs::locate` walks a virtual path component by component. Every component is looked up in the mount
table, a link is read where it lies and its target queued, an absolute target starts over at the
virtual root, and at most forty links are followed. The walk carries a handle on the directory it
has reached, so that a component costs one probe. Entries of one table are told apart by their
mount points, where the program compares their addresses.
-/

namespace Seahaven.Vfs

open Host OsStr

def maxSymlinkHops : Nat := 40

def symlinkLoopMessage : OsStr := os "too many levels of symbolic links"

end Seahaven.Vfs

namespace Seahaven

open Vfs in
/-- Filesystem access confined to a mount table. Every mount is a directory of its own: mounts never
share a host directory. -/
structure Vfs [Unicode] where
  table : MountTable
  roots : ∀ m ∈ table.mounts, m.dir.ino = 0
  apart : table.mounts.Pairwise fun m m' => m.dir.tree ≠ m'.dir.tree

namespace Vfs

open Host OsStr

variable [Unicode]

/-- Where a virtual path landed after symlink resolution. -/
structure Located where
  mount : Mount
  /-- The path relative to the mount's root, empty at the mount point itself. -/
  relative : List OsStr
  /-- The fully resolved virtual path, for diagnostics. -/
  virtualPath : VirtualPath
  deriving DecidableEq

def notFound (path : VirtualPath) : IoError :=
  .custom .notFound (os "no such file or directory: " ++ path.asStr)

def readOnly (path : VirtualPath) : IoError :=
  .custom .permissionDenied (os "read-only mount: " ++ path.asStr)

def invalidPath (e : PathError) : IoError := .custom .invalidInput e.message

variable (v : Vfs)

def locateExact (path : VirtualPath) : Except IoError Located :=
  match v.table.resolve path with
  | some (mount, rest) => .ok ⟨mount, rest, path⟩
  | none => .error (notFound path)

/-- What a scan of pending components ends at. -/
inductive Scanned
  | reached (resolved : VirtualPath)
  | failed (e : IoError)
  /-- A link the walk follows, with what is pending behind it. -/
  | atLink (located : Located) (pending : List OsStr)

def isLink (probe : Except IoError Metadata) : Bool :=
  match probe with
  | .ok m => m.isSymlink
  | .error _ => false

/-- The directory the cursor is on, usable only while the walk stays inside one mount: descending
from it would otherwise land in the outer mount's directory. -/
def descent (cursor : Option (Mount × CapDir)) (mount : Mount) : Option CapDir :=
  (cursor.filter fun c => c.1.at = mount.at).map Prod.snd

/-- Asks what a component is, of the cursor's directory by its name or of the mount by its path. -/
def probe (h : Host) (dir : Option CapDir) (component : OsStr) (l : Located) :
    Except IoError Metadata :=
  match dir with
  | some dir => dir.symlinkMetadata [component] h
  | none => l.mount.dir.symlinkMetadata l.relative h

/-- The cursor on a component, if it opens as a directory. -/
def advance (h : Host) (dir : Option CapDir) (component : OsStr) (l : Located) :
    Option (Mount × CapDir) :=
  let opened := match dir with
    | some dir => dir.openDir [component] h
    | none => l.mount.dir.openDir l.relative h
  opened.toOption.map (l.mount, ·)

/-- Looks up pending components one by one, up to the next link to follow. `cursor` is the directory
`resolved` names, with the mount it was opened from, while the walk has one. -/
def scan (h : Host) (followFinal : Bool) (cursor : Option (Mount × CapDir))
    (resolved : VirtualPath) : List OsStr → Scanned
  | [] => .reached resolved
  | component :: pending =>
    match resolved.resolve component with
    | .error e => .failed (invalidPath e)
    | .ok candidate =>
      match v.locateExact candidate with
      | .error e =>
        -- a prefix of a mount point is part of the namespace's own shape
        if pending ≠ [] ∧ candidate.isRoot = false ∧ v.table.hasMountBelow candidate then
          scan h followFinal none candidate pending
        else .failed e
      | .ok l =>
        let dir := descent cursor l.mount
        if isLink (probe h dir component l) ∧ (pending ≠ [] ∨ followFinal) then .atLink l pending
        else scan h followFinal (if pending = [] then none else advance h dir component l)
          candidate pending

/-- The target of a link the walk follows. It has to be text. -/
def linkTarget (h : Host) (path : VirtualPath) (located : Located) : Except IoError OsStr :=
  match located.mount.dir.readLinkContents located.relative h with
  | .error e => .error e
  | .ok target =>
    if target.isUtf8 then .ok target
    else .error (.custom .invalidData (os "symlink target is not valid UTF-8: " ++ path.asStr))

/-- An absolute target restarts at the virtual root, a relative one continues from where the link
itself lives. -/
def linkBase (located : Located) (target : OsStr) : VirtualPath :=
  if target.isAbsolute then .root else located.virtualPath.parent.getD .root

/-- Scans, and follows the links scans end at while `hops` of them are left. -/
def follow (h : Host) (path : VirtualPath) (followFinal : Bool) :
    Nat → VirtualPath → List OsStr → Except IoError Located
  | 0, resolved, pending =>
    match v.scan h followFinal none resolved pending with
    | .reached resolved => v.locateExact resolved
    | .failed e => .error e
    | .atLink _ _ => .error (.custom .other (symlinkLoopMessage ++ os ": " ++ path.asStr))
  | hops + 1, resolved, pending =>
    match v.scan h followFinal none resolved pending with
    | .reached resolved => v.locateExact resolved
    | .failed e => .error e
    | .atLink located pending =>
      match linkTarget h path located with
      | .error e => .error e
      | .ok target =>
        follow h path followFinal hops (linkBase located target) (target.components ++ pending)

/-- Walks `path` component by component, resolving symlinks as it goes. -/
def locate (path : VirtualPath) (followFinal : Bool) (h : Host) : Except IoError Located :=
  v.follow h path followFinal maxSymlinkHops .root path.components

def locateFollow (path : VirtualPath) : Host → Except IoError Located := v.locate path true

/-! ### Exact locations -/

variable {v}

variable {p : VirtualPath} {l : Located}

theorem locateExact_eq_ok : v.locateExact p = .ok l ↔
    v.table.resolve p = some (l.mount, l.relative) ∧ l.virtualPath = p := by
  unfold locateExact
  obtain ⟨m, rel, q⟩ := l
  split
  · rename_i m' rest h
    rw [h]
    simp [eq_comm, and_assoc]
  · rename_i h
    rw [h]
    simp

theorem locateExact_eq_error {e : IoError} : v.locateExact p = .error e ↔
    v.table.resolve p = none ∧ e = notFound p := by
  unfold locateExact
  split <;> rename_i h <;> simp [h, eq_comm]

theorem mem_of_locateExact (h : v.locateExact p = .ok l) :
    l.mount ∈ v.table.mounts :=
  (MountTable.resolve_eq_some.1 (locateExact_eq_ok.1 h).1).1

theorem components_of_locateExact (h : v.locateExact p = .ok l) :
    p.components = l.mount.at.components ++ l.relative :=
  (MountTable.resolve_eq_some.1 (locateExact_eq_ok.1 h).1).2.1

/-! ### One scan of the walk -/

section Follow

variable {h : Host} {path : VirtualPath} {followFinal : Bool} {hops : Nat}
  {resolved : VirtualPath} {pending : List OsStr}

theorem follow_reached (hs : v.scan h followFinal none resolved pending = .reached p) :
    v.follow h path followFinal hops resolved pending = v.locateExact p := by
  cases hops <;> rw [follow, hs]

theorem follow_failed {e : IoError}
    (hs : v.scan h followFinal none resolved pending = .failed e) :
    v.follow h path followFinal hops resolved pending = .error e := by
  cases hops <;> rw [follow, hs]

theorem follow_atLink_zero {rest : List OsStr}
    (hs : v.scan h followFinal none resolved pending = .atLink l rest) :
    v.follow h path followFinal 0 resolved pending =
      .error (.custom .other (symlinkLoopMessage ++ os ": " ++ path.asStr)) := by
  rw [follow, hs]

theorem follow_atLink_succ {rest : List OsStr}
    (hs : v.scan h followFinal none resolved pending = .atLink l rest) :
    v.follow h path followFinal (hops + 1) resolved pending =
      match linkTarget h path l with
      | .error e => .error e
      | .ok target =>
        v.follow h path followFinal hops (linkBase l target) (target.components ++ rest) := by
  rw [follow, hs]

theorem exact_of_follow (hl : v.follow h path followFinal hops resolved pending = .ok l) :
    v.locateExact l.virtualPath = .ok l := by
  induction hops generalizing resolved pending with
  | zero =>
    cases hs : v.scan h followFinal none resolved pending with
    | reached p =>
      rw [follow_reached hs] at hl
      rwa [(locateExact_eq_ok.1 hl).2]
    | failed e =>
      rw [follow_failed hs] at hl
      cases hl
    | atLink l' rest =>
      rw [follow_atLink_zero hs] at hl
      cases hl
  | succ hops ih =>
    cases hs : v.scan h followFinal none resolved pending with
    | reached p =>
      rw [follow_reached hs] at hl
      rwa [(locateExact_eq_ok.1 hl).2]
    | failed e =>
      rw [follow_failed hs] at hl
      cases hl
    | atLink l' rest =>
      rw [follow_atLink_succ hs] at hl
      cases ht : linkTarget h path l' with
      | error e =>
        rw [ht] at hl
        cases hl
      | ok target =>
        rw [ht] at hl
        exact ih hl

end Follow

theorem exact_of_locate {h : Host} {path : VirtualPath} {followFinal : Bool}
    (hl : v.locate path followFinal h = .ok l) : v.locateExact l.virtualPath = .ok l :=
  exact_of_follow hl

theorem mem_of_locate {h : Host} {path : VirtualPath} {followFinal : Bool}
    (hl : v.locate path followFinal h = .ok l) : l.mount ∈ v.table.mounts :=
  mem_of_locateExact (exact_of_locate hl)

theorem eq_of_tree_eq {m m' : Mount} (hm : m ∈ v.table.mounts) (hm' : m' ∈ v.table.mounts)
    (h : m.dir.tree = m'.dir.tree) : m = m' := by
  have : Std.Symm fun m m' : Mount => m.dir.tree ≠ m'.dir.tree := ⟨fun _ _ h => Ne.symm h⟩
  by_contra hne
  exact v.apart.forall hm hm' hne h

end Vfs

end Seahaven
