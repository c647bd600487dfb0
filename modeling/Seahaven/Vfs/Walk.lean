import Seahaven.Vfs.Dir
import Mathlib.Algebra.Order.Ring.Nat

/-!
# The recursive walk

An iterator over everything beneath a root. Each level is a directory capability, and a child is
stated and opened from its parent's handle by name; only the root, and a link that is followed, are
resolved as paths.

1. A frame holds an open directory and the names not read yet. The stack holds the current one on
   top.
2. With `contentsFirst`, a directory is withheld until the frame that reads it is gone.
3. One round of the loop yields a withheld directory, leaves a frame, or takes one name.
-/

namespace Seahaven.Vfs

open Host OsStr

variable [Unicode]

/-- One entry yielded by a walk. -/
structure DirEntry where
  path : VirtualPath
  /-- The path as the caller would spell it. -/
  display : PathBuf
  name : OsStr
  depth : Nat
  metadata : Metadata
  /-- Whether the entry itself is a symlink. -/
  isSymlink : Bool
  /-- Whether a symlink was resolved to produce `metadata`. -/
  followed : Bool
  deriving DecidableEq

inductive WalkErrorKind
  | io (e : IoError)
  | loop (ancestor : PathBuf)
  deriving DecidableEq

/-- Why a walk could not produce an entry. -/
structure WalkError where
  depth : Nat
  path : Option PathBuf
  kind : WalkErrorKind
  deriving DecidableEq

/-- `Error::io`. -/
def WalkError.io (depth : Nat) (path : Option PathBuf) (e : IoError) : WalkError :=
  ⟨depth, path, .io e⟩

/-- `Error::symlink_loop`. -/
def WalkError.symlinkLoop (depth : Nat) (ancestor child : PathBuf) : WalkError :=
  ⟨depth, some child, .loop ancestor⟩

abbrev Item := Except WalkError DirEntry

structure WalkOptions where
  minDepth : Nat
  maxDepth : Nat
  followLinks : Bool
  followRootLinks : Bool
  sameFileSystem : Bool
  contentsFirst : Bool
  sorter : Option (DirEntry → DirEntry → Ordering)

namespace WalkOptions

/-- `Options::default`. -/
def default : WalkOptions := ⟨0, 2 ^ 64 - 1, false, true, false, false, none⟩

def withMinDepth (o : WalkOptions) (depth : Nat) : WalkOptions :=
  { o with minDepth := min depth o.maxDepth }

def withMaxDepth (o : WalkOptions) (depth : Nat) : WalkOptions :=
  { o with maxDepth := max depth o.minDepth }

/-- The placeholder a comparator is shown for a name: the path and the metadata are the
directory's. -/
def placeholder (dent : DirEntry) (name : OsStr) : DirEntry :=
  ⟨dent.path, [name], name, dent.depth + 1, dent.metadata, false, false⟩

def order (o : WalkOptions) (dent : DirEntry) (names : List OsStr) : List OsStr :=
  match o.sorter with
  | none => names
  | some cmp => names.mergeSort fun a b =>
      cmp (placeholder dent a) (placeholder dent b) ≠ .gt

end WalkOptions

/-- One open directory level. -/
structure Frame where
  dir : Dir
  path : VirtualPath
  display : PathBuf
  entries : List OsStr
  identity : Option FileIdentity

/-- A walk in progress. The stacks have their tops first. -/
structure IntoIter where
  vfs : Option Vfs
  start : Option (VirtualPath × PathBuf)
  deferred : Option IoError
  opts : WalkOptions
  stack : List Frame
  deferredDirs : List DirEntry
  depth : Nat
  rootDevice : Option Nat
  done : Bool

namespace IntoIter

/-- `Walk::rooted` and `into_iter`. -/
def rooted (vfs : Vfs) (root : VirtualPath) (display : PathBuf) (opts : WalkOptions) : IntoIter :=
  ⟨some vfs, some (root, display), none, opts, [], [], 0, none, false⟩

/-- `Walk::failed` and `into_iter`. -/
def failed (error : IoError) : IntoIter :=
  ⟨none, none, some error, .default, [], [], 0, none, false⟩

def pop (it : IntoIter) : IntoIter := { it with stack := it.stack.tail }

def skipCurrentDir (it : IntoIter) : IntoIter := if it.stack = [] then it else it.pop

def skippable (it : IntoIter) : Bool := it.depth < it.opts.minDepth || it.opts.maxDepth < it.depth

/-- The directory withheld last, once the frame that read it is gone. -/
def getDeferredDir (it : IntoIter) : Option DirEntry × IntoIter :=
  if it.opts.contentsFirst && it.depth < it.deferredDirs.length then
    match it.deferredDirs with
    | [] => (none, it)
    | deferred :: rest =>
      (if it.skippable then none else some deferred, { it with deferredDirs := rest })
  else (none, it)

variable (h : Host) (vfs : Vfs)

def rootEntry (root : VirtualPath) (display : PathBuf) : Item :=
  match vfs.symlinkMetadata root h with
  | .error e => .error (.io 0 (some display) e)
  | .ok metadata =>
    .ok ⟨root, display, root.fileName.getD [], 0, metadata, metadata.isSymlink, false⟩

/-- Stats a child by name, relative to the directory currently being read. -/
def childOf (frame : Frame) (depth : Nat) (name : OsStr) : Item :=
  match frame.path.resolve name with
  | .error e => .error (.io depth (some frame.display) (.custom .other e.message))
  | .ok path =>
    match frame.dir.symlinkMetadata name h with
    | .error e => .error (.io depth (some (frame.display ++ [name])) e)
    | .ok metadata =>
      .ok ⟨path, frame.display ++ [name], name, depth, metadata, metadata.isSymlink, false⟩

def childEntry (it : IntoIter) (name : OsStr) : Item :=
  match it.stack with
  | [] => .error (.io it.depth none
      (.custom .other (os "BUG: child entry with no open directory")))
  | frame :: _ => childOf h frame it.depth name

def follow (dent : DirEntry) : Item :=
  match (vfs.metadata dent.path h).1 with
  | .error e => .error (.io dent.depth (some dent.display) e)
  | .ok metadata => .ok { dent with metadata := metadata, isSymlink := false, followed := true }

def openChild (it : IntoIter) (dent : DirEntry) : Except WalkError Dir :=
  let opened := match it.stack, dent.followed with
    | frame :: _, false => frame.dir.openDir dent.name h
    | _, _ => vfs.openDir dent.path h
  opened.mapError (.io dent.depth (some dent.display))

def crosses (it : IntoIter) (identity : Option FileIdentity) : Bool :=
  it.opts.sameFileSystem &&
    match identity, it.rootDevice with
    | some id, some root => id.device ≠ root
    | _, _ => false

def loopsTo (it : IntoIter) (dent : DirEntry) (identity : Option FileIdentity) : Option Frame :=
  match dent.followed, identity with
  | true, some id => it.stack.find? fun f => f.identity = some id
  | _, _ => none

/-- The last part of `push`: reads the directory and makes it the level read from next. -/
def enter (dent : DirEntry) (dir : Dir) (identity : Option FileIdentity) :
    Op IntoIter WalkError Unit := fun it =>
  match dir.entryNames h with
  | .error e => (.error (.io dent.depth (some dent.display) e), it)
  | .ok names =>
    (.ok (), { it with
      stack := ⟨dir, dent.path, dent.display, it.opts.order dent names, identity⟩ :: it.stack })

/-- Opens a directory and makes it the level the walk reads from next. -/
def push (dent : DirEntry) : Op IntoIter WalkError Unit := fun it =>
  match it.openChild h vfs dent with
  | .error e => (.error e, it)
  | .ok dir =>
    let identity :=
      if it.opts.followLinks || it.opts.sameFileSystem then some dir.identity else none
    if dent.depth ≠ 0 && it.crosses identity then (.ok (), it)
    else
      let it := if dent.depth = 0 then { it with rootDevice := identity.map FileIdentity.device }
        else it
      match it.loopsTo dent identity with
      | some ancestor => (.error (.symlinkLoop dent.depth ancestor.display dent.display), it)
      | none => enter h dent dir identity it

/-- Descends into a root that is a link to a directory. It keeps reporting itself as a link. -/
def pushRootLink (dent : DirEntry) : Op IntoIter WalkError Unit := fun it =>
  match (vfs.metadata dent.path h).1 with
  | .error e => (.error (.io dent.depth (some dent.display) e), it)
  | .ok md => if md.isDir then push h vfs dent it else (.ok (), it)

def isNormalDir (dent : DirEntry) : Bool := !dent.isSymlink && dent.metadata.isDir

def descend (dent : DirEntry) : Op IntoIter WalkError Unit := fun it =>
  if isNormalDir dent then push h vfs dent it
  else if dent.depth = 0 && dent.isSymlink && it.opts.followRootLinks then
    pushRootLink h vfs dent it
  else (.ok (), it)

/-- Whether an entry whose descent has been arranged is withheld, passed over or yielded. -/
def settle (dent : DirEntry) (it : IntoIter) : Option Item × IntoIter :=
  if isNormalDir dent && it.opts.contentsFirst then
    (none, { it with deferredDirs := dent :: it.deferredDirs })
  else if it.skippable then (none, it)
  else (some (.ok dent), it)

/-- Decides whether an entry is descended into, deferred, or yielded. -/
def handleEntry (dent : DirEntry) (it : IntoIter) : Option Item × IntoIter :=
  match if it.opts.followLinks && dent.isSymlink then follow h vfs dent else .ok dent with
  | .error e => (some (.error e), it)
  | .ok dent =>
    match descend h vfs dent it with
    | (.error e, it) => (some (.error e), it)
    | (.ok (), it) => settle dent it

/-- What a round of the loop does with the frame on top: it is left, or its next name is taken. -/
def advance (it : IntoIter) : Option Item × IntoIter :=
  match it.stack with
  | [] => (none, it)
  | frame :: below =>
    match frame.entries with
    | [] => (none, it.pop)
    | name :: rest =>
      let it := { it with stack := { frame with entries := rest } :: below }
      match it.childEntry h name with
      | .error e => (some (.error e), it)
      | .ok dent => handleEntry h vfs dent it

def resume (it : IntoIter) : Option Item × IntoIter :=
  if it.opts.maxDepth < it.depth then (none, it.pop) else advance h vfs it

/-- One round of the loop of `next`. -/
def turn (it : IntoIter) : Option Item × IntoIter :=
  match getDeferredDir { it with depth := it.stack.length } with
  | (some dent, it) => (some (.ok dent), it)
  | (none, it) => resume h vfs it

/-- What is left to do when every frame is gone. -/
def close (it : IntoIter) : Option Item × IntoIter :=
  if it.opts.contentsFirst then
    match getDeferredDir { it with depth := it.stack.length } with
    | (some dent, it) => (some (.ok dent), it)
    | (none, it) => (none, { it with done := true })
  else (none, { it with done := true })

/-- The loop of `next`, for as many rounds as `fuel` allows. -/
def loop : Nat → IntoIter → Option (Option Item × IntoIter)
  | 0, _ => none
  | fuel + 1, it =>
    if it.stack.isEmpty then some it.close
    else
      match it.turn h vfs with
      | (some item, it) => some (some item, it)
      | (none, it) => loop fuel it

/-- The first step of a walk, from its root. -/
def begin (root : VirtualPath) (display : PathBuf) (fuel : Nat) (it : IntoIter) :
    Option (Option Item × IntoIter) :=
  match rootEntry h vfs root display with
  | .error e => some (some (.error e), { it with done := true })
  | .ok dent =>
    match handleEntry h vfs dent it with
    | (some item, it) => some (some item, it)
    | (none, it) => loop h vfs fuel it

/-- `Iterator::next`. -/
def next (fuel : Nat) (it : IntoIter) : Option (Option Item × IntoIter) :=
  match it.deferred with
  | some error => some (some (.error (.io 0 (it.start.map Prod.snd) error)),
      { it with deferred := none, done := true })
  | none =>
    if it.done then some (none, it)
    else
      match it.vfs with
      | none => some (none, it)
      | some vfs =>
        match it.start with
        | some (root, display) => begin h vfs root display fuel { it with start := none }
        | none => loop h vfs fuel it

/-- The items of `n` calls of `next` at most, up to the one that answers nothing. -/
def drive (fuel : Nat) : Nat → IntoIter → Option (List Item)
  | 0, _ => none
  | n + 1, it =>
    match it.next h fuel with
    | none => none
    | some (none, _) => some []
    | some (some item, it) => (drive fuel n it).map (item :: ·)

end IntoIter

end Seahaven.Vfs
