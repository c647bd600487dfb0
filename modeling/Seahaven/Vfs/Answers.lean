import Seahaven.Vfs.Walk

/-!
# The walk over any answers

The recursive walk as a program over what it is answered, whatever answers: a host that may refuse
to open a directory or to list it, and whose names and identities are what they are.

1. `Answers`: the questions a walk asks.
2. The iterator over them, as the source has it.
3. `Answers.ofHost`: a host's answers. `drive_ofHost`: over them the walk is the iterator of
   `IntoIter`.
-/

namespace Seahaven.Vfs

open Host OsStr

variable [Unicode]

/-- The answers a walk gets. -/
structure Answers where
  /-- `Vfs::symlink_metadata`. -/
  lstat : VirtualPath → Except IoError Metadata
  /-- `Vfs::metadata`. -/
  metadata : VirtualPath → Except IoError Metadata
  /-- `Vfs::open_dir`. -/
  openDir : VirtualPath → Except IoError Dir
  /-- `Dir::symlink_metadata`. -/
  lstatAt : Dir → OsStr → Except IoError Metadata
  /-- `Dir::open_dir`. -/
  openAt : Dir → OsStr → Except IoError Dir
  /-- `Dir::entry_names`. -/
  entryNames : Dir → Except IoError (List OsStr)

namespace Answers

variable (A : Answers)

/-! ## The iterator -/

def rootEntry (root : VirtualPath) (display : PathBuf) : Item :=
  match A.lstat root with
  | .error e => .error (.io 0 (some display) e)
  | .ok metadata =>
    .ok ⟨root, display, root.fileName.getD [], 0, metadata, metadata.isSymlink, false⟩

/-- Stats a child by name, relative to the directory currently being read. -/
def childOf (frame : Frame) (depth : Nat) (name : OsStr) : Item :=
  match frame.path.resolve name with
  | .error e => .error (.io depth (some frame.display) (.custom .other e.message))
  | .ok path =>
    match A.lstatAt frame.dir name with
    | .error e => .error (.io depth (some (frame.display ++ [name])) e)
    | .ok metadata =>
      .ok ⟨path, frame.display ++ [name], name, depth, metadata, metadata.isSymlink, false⟩

def childEntry (it : IntoIter) (name : OsStr) : Item :=
  match it.stack with
  | [] => .error (.io it.depth none
      (.custom .other (os "BUG: child entry with no open directory")))
  | frame :: _ => A.childOf frame it.depth name

def follow (dent : DirEntry) : Item :=
  match A.metadata dent.path with
  | .error e => .error (.io dent.depth (some dent.display) e)
  | .ok metadata => .ok { dent with metadata := metadata, isSymlink := false, followed := true }

def openChild (it : IntoIter) (dent : DirEntry) : Except WalkError Dir :=
  let opened := match it.stack, dent.followed with
    | frame :: _, false => A.openAt frame.dir dent.name
    | _, _ => A.openDir dent.path
  opened.mapError (.io dent.depth (some dent.display))

/-- The last part of `push`: reads the directory and makes it the level read from next. -/
def enter (dent : DirEntry) (dir : Dir) (identity : Option FileIdentity) :
    Op IntoIter WalkError Unit := fun it =>
  match A.entryNames dir with
  | .error e => (.error (.io dent.depth (some dent.display) e), it)
  | .ok names =>
    (.ok (), { it with
      stack := ⟨dir, dent.path, dent.display, it.opts.order dent names, identity⟩ :: it.stack })

/-- Opens a directory and makes it the level the walk reads from next. -/
def push (dent : DirEntry) : Op IntoIter WalkError Unit := fun it =>
  match A.openChild it dent with
  | .error e => (.error e, it)
  | .ok dir =>
    let identity :=
      if it.opts.followLinks || it.opts.sameFileSystem then some dir.identity else none
    if dent.depth ≠ 0 && it.crosses identity then (.ok (), it)
    else
      let it := if dent.depth = 0 then { it with rootDevice := identity.map FileIdentity.device }
        else it
      match it.loopsTo dent identity with
      | some ancestor => (.error (.symlinkLoop dent.depth ancestor.display dent.display), it)
      | none => A.enter dent dir identity it

/-- Descends into a root that is a link to a directory. It keeps reporting itself as a link. -/
def pushRootLink (dent : DirEntry) : Op IntoIter WalkError Unit := fun it =>
  match A.metadata dent.path with
  | .error e => (.error (.io dent.depth (some dent.display) e), it)
  | .ok md => if md.isDir then A.push dent it else (.ok (), it)

def descend (dent : DirEntry) : Op IntoIter WalkError Unit := fun it =>
  if IntoIter.isNormalDir dent then A.push dent it
  else if dent.depth = 0 && dent.isSymlink && it.opts.followRootLinks then
    A.pushRootLink dent it
  else (.ok (), it)

/-- Decides whether an entry is descended into, deferred, or yielded. -/
def handleEntry (dent : DirEntry) (it : IntoIter) : Option Item × IntoIter :=
  match if it.opts.followLinks && dent.isSymlink then A.follow dent else .ok dent with
  | .error e => (some (.error e), it)
  | .ok dent =>
    match A.descend dent it with
    | (.error e, it) => (some (.error e), it)
    | (.ok (), it) => IntoIter.settle dent it

/-- What a round of the loop does with the frame on top: it is left, or its next name is taken. -/
def advance (it : IntoIter) : Option Item × IntoIter :=
  match it.stack with
  | [] => (none, it)
  | frame :: below =>
    match frame.entries with
    | [] => (none, it.pop)
    | name :: rest =>
      let it := { it with stack := { frame with entries := rest } :: below }
      match A.childEntry it name with
      | .error e => (some (.error e), it)
      | .ok dent => A.handleEntry dent it

def resume (it : IntoIter) : Option Item × IntoIter :=
  if it.opts.maxDepth < it.depth then (none, it.pop) else A.advance it

/-- One round of the loop of `next`. -/
def turn (it : IntoIter) : Option Item × IntoIter :=
  match IntoIter.getDeferredDir { it with depth := it.stack.length } with
  | (some dent, it) => (some (.ok dent), it)
  | (none, it) => A.resume it

/-- The loop of `next`, for as many rounds as `fuel` allows. -/
def loop : Nat → IntoIter → Option (Option Item × IntoIter)
  | 0, _ => none
  | fuel + 1, it =>
    if it.stack.isEmpty then some it.close
    else
      match A.turn it with
      | (some item, it) => some (some item, it)
      | (none, it) => loop fuel it

/-- The first step of a walk, from its root. -/
def begin (root : VirtualPath) (display : PathBuf) (fuel : Nat) (it : IntoIter) :
    Option (Option Item × IntoIter) :=
  match A.rootEntry root display with
  | .error e => some (some (.error e), { it with done := true })
  | .ok dent =>
    match A.handleEntry dent it with
    | (some item, it) => some (some item, it)
    | (none, it) => A.loop fuel it

/-- `Iterator::next`. -/
def next (fuel : Nat) (it : IntoIter) : Option (Option Item × IntoIter) :=
  match it.deferred with
  | some error => some (some (.error (.io 0 (it.start.map Prod.snd) error)),
      { it with deferred := none, done := true })
  | none =>
    if it.done then some (none, it)
    else
      match it.vfs with
      | none => some (none, it)
      | some _ =>
        match it.start with
        | some (root, display) => A.begin root display fuel { it with start := none }
        | none => A.loop fuel it

/-- The items of `n` calls of `next` at most, up to the one that answers nothing. -/
def drive (fuel : Nat) : Nat → IntoIter → Option (List Item)
  | 0, _ => none
  | n + 1, it =>
    match A.next fuel it with
    | none => none
    | some (none, _) => some []
    | some (some item, it) => (drive fuel n it).map (item :: ·)

/-! ## A host's answers -/

variable (h : Host) (v : Vfs)

/-- What a host answers. -/
def ofHost : Answers where
  lstat path := v.symlinkMetadata path h
  metadata path := (v.metadata path h).1
  openDir path := v.openDir path h
  lstatAt dir name := dir.symlinkMetadata name h
  openAt dir name := dir.openDir name h
  entryNames dir := dir.entryNames h

variable {h v}

theorem openChild_ofHost (it : IntoIter) (dent : DirEntry) :
    (ofHost h v).openChild it dent = it.openChild h v dent := by
  unfold openChild IntoIter.openChild
  cases it.stack <;> cases dent.followed <;> rfl

theorem push_ofHost (dent : DirEntry) : (ofHost h v).push dent = IntoIter.push h v dent := by
  funext it
  unfold push IntoIter.push
  rw [openChild_ofHost]
  rfl

theorem descend_ofHost (dent : DirEntry) :
    (ofHost h v).descend dent = IntoIter.descend h v dent := by
  funext it
  unfold descend IntoIter.descend pushRootLink IntoIter.pushRootLink
  rw [push_ofHost]
  rfl

theorem handleEntry_ofHost (dent : DirEntry) :
    (ofHost h v).handleEntry dent = IntoIter.handleEntry h v dent := by
  funext it
  unfold handleEntry IntoIter.handleEntry
  simp only [descend_ofHost]
  rfl

theorem advance_ofHost (it : IntoIter) : (ofHost h v).advance it = it.advance h v := by
  unfold advance IntoIter.advance
  simp only [handleEntry_ofHost]
  rfl

theorem turn_ofHost (it : IntoIter) : (ofHost h v).turn it = it.turn h v := by
  unfold turn IntoIter.turn resume IntoIter.resume
  simp only [advance_ofHost] <;> rfl

theorem loop_ofHost (fuel : Nat) (it : IntoIter) :
    (ofHost h v).loop fuel it = it.loop h v fuel := by
  induction fuel generalizing it with
  | zero => rfl
  | succ fuel ih =>
    unfold loop IntoIter.loop
    simp only [turn_ofHost, ih] <;> rfl

/-! A walk keeps to its namespace. -/

theorem vfs_push (dent : DirEntry) (it : IntoIter) : (A.push dent it).2.vfs = it.vfs := by
  unfold push enter
  cases A.openChild it dent with
  | error e => rfl
  | ok dir =>
    dsimp only
    repeat' split
    all_goals rfl

theorem vfs_descend (dent : DirEntry) (it : IntoIter) : (A.descend dent it).2.vfs = it.vfs := by
  unfold descend pushRootLink
  split
  · exact A.vfs_push dent it
  split
  · cases A.metadata dent.path with
    | error e => rfl
    | ok m =>
      dsimp only
      split
      · exact A.vfs_push dent it
      · rfl
  · rfl

theorem vfs_handleEntry (dent : DirEntry) (it : IntoIter) :
    (A.handleEntry dent it).2.vfs = it.vfs := by
  unfold handleEntry
  split
  · rfl
  · rename_i d _
    have hd := A.vfs_descend d it
    rcases hdesc : A.descend d it with ⟨e | u, it'⟩
    · rw [hdesc] at hd
      exact hd
    · rw [hdesc] at hd
      unfold IntoIter.settle
      dsimp only
      split_ifs
      all_goals exact hd

theorem vfs_getDeferredDir (it : IntoIter) : it.getDeferredDir.2.vfs = it.vfs := by
  unfold IntoIter.getDeferredDir
  split
  · split <;> rfl
  · rfl

theorem vfs_close (it : IntoIter) : it.close.2.vfs = it.vfs := by
  unfold IntoIter.close
  have hd := vfs_getDeferredDir { it with depth := it.stack.length }
  split
  · rcases hdef : IntoIter.getDeferredDir { it with depth := it.stack.length } with ⟨_ | d, it'⟩
    · rw [hdef] at hd
      exact hd
    · rw [hdef] at hd
      exact hd
  · rfl

theorem vfs_turn (it : IntoIter) : (A.turn it).2.vfs = it.vfs := by
  have hresume : ∀ it, (A.resume it).2.vfs = it.vfs := by
    intro it
    unfold resume advance
    split
    · rfl
    split
    · rfl
    split
    · rfl
    dsimp only
    split
    · rfl
    · exact A.vfs_handleEntry _ _
  unfold turn
  have hd := vfs_getDeferredDir { it with depth := it.stack.length }
  rcases hdef : IntoIter.getDeferredDir { it with depth := it.stack.length } with ⟨_ | d, it'⟩
  · rw [hdef] at hd
    exact (hresume it').trans hd
  · rw [hdef] at hd
    exact hd

theorem vfs_loop (fuel : Nat) (it : IntoIter) {x : Option Item} {it' : IntoIter}
    (hl : A.loop fuel it = some (x, it')) : it'.vfs = it.vfs := by
  induction fuel generalizing it with
  | zero => cases hl
  | succ fuel ih =>
    unfold loop at hl
    split_ifs at hl
    · obtain rfl : it.close.2 = it' := congrArg Prod.snd (Option.some.inj hl)
      exact vfs_close it
    · have ht := A.vfs_turn it
      rcases hturn : A.turn it with ⟨_ | item, it''⟩
      · rw [hturn] at hl ht
        exact (ih it'' hl).trans ht
      · rw [hturn] at hl ht
        obtain ⟨-, rfl⟩ := Prod.mk.inj (Option.some.inj hl)
        exact ht

theorem vfs_next (fuel : Nat) (it : IntoIter) {x : Option Item} {it' : IntoIter}
    (hn : A.next fuel it = some (x, it')) : it'.vfs = it.vfs := by
  obtain ⟨vfs, start, deferred, opts, stack, withheld, depth, device, done⟩ := it
  unfold next begin at hn
  dsimp only at hn ⊢
  cases deferred with
  | some e =>
    obtain ⟨-, rfl⟩ := Prod.mk.inj (Option.some.inj hn)
    rfl
  | none =>
    dsimp only at hn
    split at hn
    · obtain ⟨-, rfl⟩ := Prod.mk.inj (Option.some.inj hn)
      rfl
    cases vfs with
    | none =>
      obtain ⟨-, rfl⟩ := Prod.mk.inj (Option.some.inj hn)
      rfl
    | some v =>
      dsimp only at hn
      cases start with
      | none => exact A.vfs_loop fuel _ hn
      | some root =>
        dsimp only at hn
        split at hn
        · obtain ⟨-, rfl⟩ := Prod.mk.inj (Option.some.inj hn)
          rfl
        rename_i dent _
        have hd := A.vfs_handleEntry dent
          ⟨some v, none, none, opts, stack, withheld, depth, device, done⟩
        rcases hhandle : A.handleEntry dent
          ⟨some v, none, none, opts, stack, withheld, depth, device, done⟩ with ⟨_ | item, it''⟩
        · rw [hhandle] at hn hd
          exact (A.vfs_loop fuel it'' hn).trans hd
        · rw [hhandle] at hn hd
          obtain ⟨-, rfl⟩ := Prod.mk.inj (Option.some.inj hn)
          exact hd

theorem next_ofHost {it : IntoIter} (hv : ∀ v', it.vfs = some v' → v' = v) (fuel : Nat) :
    (ofHost h v).next fuel it = it.next h fuel := by
  obtain ⟨vfs, start, deferred, opts, stack, withheld, depth, device, done⟩ := it
  unfold next IntoIter.next begin IntoIter.begin
  simp only [loop_ofHost, handleEntry_ofHost]
  cases vfs with
  | none => rfl
  | some v' =>
    obtain rfl := hv v' rfl
    rfl

/-- **A host's answers.** Over them the walk is the iterator. -/
theorem drive_ofHost {it : IntoIter} (hv : ∀ v', it.vfs = some v' → v' = v) (fuel n : Nat) :
    (ofHost h v).drive fuel n it = it.drive h fuel n := by
  induction n generalizing it with
  | zero => rfl
  | succ n ih =>
    unfold drive IntoIter.drive
    rw [next_ofHost hv]
    rcases hn : it.next h fuel with _ | ⟨_ | item, it'⟩
    · rfl
    · rfl
    · dsimp only
      rw [ih fun v' hv' => hv v' ?_]
      rw [← hv', ← vfs_next _ fuel it ((next_ofHost hv fuel).trans hn)]

end Answers

end Seahaven.Vfs
