import Seahaven.Host.CreateAll
import Seahaven.Vfs.Frame
import Seahaven.Vfs.Relabel

/-!
# Read-only mounts

Read-only is enforced call by call: an operation that means to write asks the mount of its location
first. What an operation would do without that question is what it does over the same table with
every mount writable (`allow`). Resolution does not look at access, so the two run alike up to the
question, and the question is what keeps the trees of read-only mounts as they are.

One kind of call is not asked: an open that is no write by `OpenMode::is_write`, whose raw flag word
creates or truncates all the same.
-/

namespace Seahaven.Vfs

open Host OsStr Op

variable [Unicode]

/-! ## Resolution does not depend on access -/

def Mount.allow (m : Mount) : Mount := { m with access := .readWrite }

def Located.allow (l : Located) : Located := { l with mount := l.mount.allow }

def Dir.allow (d : Dir) : Dir := { d with writable := true }

theorem relabel_allow : Relabel Mount.allow := ⟨fun _ => rfl, fun _ => rfl, fun _ => rfl⟩

/-- The table with every mount writable. -/
def MountTable.allow (t : MountTable) : MountTable where
  mounts := t.mounts.map Mount.allow
  sorted := List.pairwise_map.2 t.sorted
  points := List.pairwise_map.2 t.points
  nesting m hm := by
    obtain ⟨m₀, hm₀, rfl⟩ := List.mem_map.1 hm
    rw [hasPointBelow_relabel relabel_allow]
    exact t.nesting m₀ hm₀

def allow (v : Vfs) : Vfs where
  table := v.table.allow
  roots m hm := by
    obtain ⟨m₀, hm₀, rfl⟩ := List.mem_map.1 hm
    exact v.roots m₀ hm₀
  apart := List.pairwise_map.2 v.apart

variable {v : Vfs} {α : Type}

/-- **Resolution does not look at access.** -/
theorem locate_allow {path : VirtualPath} {followFinal : Bool} {h : Host} :
    v.allow.locate path followFinal h = (v.locate path followFinal h).map Located.allow :=
  locate_relabel relabel_allow

theorem careful_allow {path : VirtualPath} {followFinal : Bool}
    {op op' : Located → Op Host IoError α} (hop : ∀ l, op l.allow = op' l) :
    v.allow.careful path followFinal op = v.careful path followFinal op' :=
  careful_relabel relabel_allow hop

theorem at_allow {path : VirtualPath} {followFinal : Bool} {op op' : Located → Op Host IoError α}
    (hop : ∀ l, op l.allow = op' l) :
    v.allow.at path followFinal op = v.at path followFinal op' :=
  at_relabel relabel_allow hop

/-! ## The trees of read-only mounts -/

def ReadOnlyTree (v : Vfs) (i : Nat) : Prop :=
  ∃ m ∈ v.table.mounts, m.access = .readOnly ∧ m.dir.tree = i

def Unharmed (v : Vfs) : Host → Host → Prop := Fixed v.ReadOnlyTree

instance : Std.Refl (Unharmed v) := inferInstanceAs (Std.Refl (Fixed _))

instance : IsTrans Host (Unharmed v) := inferInstanceAs (IsTrans Host (Fixed _))

theorem not_readOnlyTree {m : Mount} (hm : m ∈ v.table.mounts)
    (hw : m.access.isWritable = true) : ¬ v.ReadOnlyTree m.dir.tree := by
  rintro ⟨m', hm', hro, ht⟩
  obtain rfl := eq_of_tree_eq hm' hm ht
  rw [hro] at hw
  cases hw

variable {h' : Host}

theorem unharmed_of_offTree {m : Mount} {h : Host} (hm : m ∈ v.table.mounts)
    (hw : m.access.isWritable = true) (ho : OffTree m.dir.tree h h') : Unharmed v h h' :=
  ho.mono fun _ hi hne => not_readOnlyTree hm hw (hne ▸ hi)

/-- Whether an operation that would harm a read-only tree, were it asked for over a writable table,
is refused and changes nothing. -/
def Refused (v : Vfs) (h : Host) (asked : Op Host IoError α) (would : Op Host IoError α) : Prop :=
  Unharmed v h (would h).2 ∨
    ∃ e, asked h = (.error e, h) ∧ (e.kind = .permissionDenied ∨ e.kind = .crossesDevices)

/-- Where the fast path of a path ends at a read-only mount, the walk that follows the refusal does
not lead into a writable one, nor fail for another reason. -/
def settled (v : Vfs) (h : Host) (path : VirtualPath) (followFinal : Bool) : Bool :=
  match v.locateExact path with
  | .error _ => true
  | .ok l =>
    if l.mount.access.isWritable || l.mount.shadowsNested then true
    else
      match v.locate path followFinal h with
      | .ok l' => !l'.mount.access.isWritable
      | .error e => e.kind = .permissionDenied

variable {l : Located}

theorem writing_of_writable {f : Located → Op Host IoError α}
    (hw : l.mount.access.isWritable = true) : writing f l = f l := by
  unfold writing requireWritable
  rw [if_pos hw]
  rfl

theorem writing_of_readOnly {f : Located → Op Host IoError α}
    (hw : l.mount.access.isWritable = false) :
    writing f l = .check (.error (readOnly l.virtualPath)) := by
  unfold writing requireWritable
  rw [if_neg (by simp [hw])]
  rfl

section Refused

variable {f : Located → Op Host IoError α} {path : VirtualPath} {followFinal : Bool} {h : Host}

theorem writing_allow (hallow : ∀ l, f l.allow = f l) (l : Located) :
    writing f l.allow = f l := by
  rw [writing_of_writable rfl, hallow]

theorem refused_careful (hallow : ∀ l, f l.allow = f l)
    (hframe : ∀ l, Keeps (OffTree l.mount.dir.tree) (f l)) :
    Refused v h (v.careful path followFinal (writing f))
      (v.allow.careful path followFinal (writing f)) := by
  rw [careful_allow (writing_allow hallow)]
  unfold careful
  cases hl : v.locate path followFinal h with
  | error e =>
    refine Or.inl ?_
    rw [read_bind_error hl]
    exact refl_of (Unharmed v) h
  | ok l =>
    have hm := mem_of_locate hl
    cases hw : l.mount.access.isWritable with
    | true =>
      refine Or.inl ?_
      rw [read_bind_ok hl]
      exact unharmed_of_offTree hm hw (hframe l h)
    | false =>
      refine Or.inr ⟨readOnly l.virtualPath, ?_, Or.inl rfl⟩
      rw [read_bind_ok hl, writing_of_readOnly hw]
      rfl

/-- **A write is refused before it harms.** Over a writable table the operation runs at one of two
locations; if it harms a read-only tree from there, the real one was refused there. -/
theorem refused_at (hallow : ∀ l, f l.allow = f l)
    (hframe : ∀ l, Keeps (OffTree l.mount.dir.tree) (f l))
    (hdenied : ∀ l e, v.locateExact path = .ok l → (f l h).1 = .error e →
      e.kind = .permissionDenied → (f l h).2 = h)
    (hsettled : v.settled h path followFinal = true) :
    Refused v h (v.at path followFinal (writing f)) (v.allow.at path followFinal (writing f)) := by
  have hcareful : Refused v h (v.careful path followFinal (writing f))
      (v.allow.careful path followFinal (writing f)) := refused_careful hallow hframe
  rw [careful_allow (writing_allow hallow)] at hcareful
  rw [at_allow (writing_allow hallow)]
  unfold Vfs.at
  cases hd : v.locateExact path with
  | error e => exact Or.inl (refl_of (Unharmed v) h)
  | ok l =>
    have hm := mem_of_locateExact hd
    simp only [check_ok_bind]
    cases hs : l.mount.shadowsNested with
    | true => simpa using hcareful
    | false =>
      simp only [Bool.false_eq_true, if_false]
      cases hw : l.mount.access.isWritable with
      | true =>
        rw [writing_of_writable hw]
        cases hr : f l h with
        | mk r h' =>
          have hoff : OffTree l.mount.dir.tree h h' := by
            have := hframe l h
            rwa [KeepsAt, hr] at this
          have hattempt : (f l).attempt h = (.ok r, h') := by rw [attempt_apply, hr]
          cases r with
          | ok a =>
            refine Or.inl ?_
            rw [bind_ok hattempt]
            exact unharmed_of_offTree hm hw hoff
          | error e =>
            unfold Refused
            rw [bind_ok hattempt, bind_ok hattempt]
            dsimp only
            split_ifs with hk
            · obtain rfl : h' = h := by
                have := hdenied l e hd (by rw [hr]) hk
                rwa [hr] at this
              exact hcareful
            · exact Or.inl (unharmed_of_offTree hm hw hoff)
      | false =>
        -- the fast path is refused, and the walk settles on a refusal
        refine Or.inr ?_
        rw [writing_of_readOnly hw]
        have hattempt : ((check (.error (readOnly l.virtualPath)) : Op Host IoError α)).attempt h =
            (.ok (.error (readOnly l.virtualPath)), h) := rfl
        rw [bind_ok hattempt]
        dsimp only
        rw [if_pos (show (readOnly l.virtualPath).kind = .permissionDenied from rfl)]
        simp only [settled, hd, hw, hs, Bool.or_self, Bool.false_eq_true, if_false] at hsettled
        unfold careful
        cases hl : v.locate path followFinal h with
        | error e =>
          rw [hl] at hsettled
          rw [read_bind_error hl]
          exact ⟨e, rfl, Or.inl (by simpa using hsettled)⟩
        | ok l' =>
          rw [hl] at hsettled
          rw [read_bind_ok hl, writing_of_readOnly (by simpa using hsettled)]
          exact ⟨readOnly l'.virtualPath, rfl, Or.inl rfl⟩

end Refused

/-! ## Opens that are no writes -/

open OFlags in
/-- Whether an open with this flag word finds nothing to create and nothing to truncate. -/
def leavesTree (t : Tree) (root : HostPath) (rel : List OsStr) (flags : OFlags) : Bool :=
  !flags.accepted ||
    match t.lookup root (Tree.followsFinal flags) rel with
    | .error _ => true
    | .ok p =>
      match t.node p with
      | none => !flags.has creat
      | some n => !flags.has trunc || n.kind ≠ .file || (t.attr n.ino).content = [] ||
          (flags.has creat && flags.has excl) || flags.has directory

/-- Whether an open beneath a handle finds nothing to create and nothing to truncate. -/
def leaves (d : CapDir) (rel : List OsStr) (mode : OpenMode) (h : Host) : Bool :=
  match mode.toCapStd.oflags, (h.tree d.tree).pathOf d.ino with
  | .ok flags, some root => leavesTree (h.tree d.tree) root rel flags
  | _, _ => true

/-- Whether an open that is no write leaves the read-only mounts it is tried in alone: the one its
path lies in, and the one the walk leads to when the first try was refused. -/
def quiet (v : Vfs) (h : Host) (path : VirtualPath) (mode : OpenMode) : Bool :=
  match v.locateExact path with
  | .error _ => true
  | .ok l =>
    let tried := match v.locate path true h with
      | .error _ => true
      | .ok l' => l'.mount.access.isWritable || leaves l'.mount.dir l'.relative mode h
    if l.mount.shadowsNested then tried
    else (l.mount.access.isWritable || leaves l.mount.dir l.relative mode h) &&
      match (l.mount.dir.openWith l.relative mode.toCapStd h).1 with
      | .ok _ => true
      | .error e => e.kind ≠ .permissionDenied || tried

variable {mode : OpenMode}

omit [Unicode] in
theorem keepsAt_leaves {d : CapDir} {rel : List OsStr} {h : Host}
    (hl : leaves d rel mode h = true) :
    KeepsAt (Fixed fun _ => True) (d.openWith rel mode.toCapStd) h := by
  refine CapDir.keepsAt_openWith fun flags n e t hflags hopen ht => ?_
  obtain ⟨root, hroot, hopen⟩ := CapDir.ask_eq_ok.1 hopen
  simp only [leaves, hflags, hroot, leavesTree] at hl
  obtain ⟨hacc, p, hp, ⟨hcreat, hnone, -⟩ | ⟨htrunc, hexcl, hdir, hn, hk, rfl⟩⟩ :=
    Tree.openat_eq_ok hopen
  · simp [hacc, hp, hnone, hcreat] at hl
  · have hempty : ((h.tree d.tree).attr n.ino).content = [] := by
      simpa [hacc, hp, hn, htrunc, hk, hexcl, hdir] using hl
    have hsame : ({ (h.tree d.tree).attr n.ino with content := [] } : Attr) =
        (h.tree d.tree).attr n.ino := by rw [← hempty]
    rw [Tree.apply, hsame, Tree.setAttr_self] at ht
    obtain rfl := Except.ok.inj ht
    intro i _
    by_cases hi : i = d.tree
    · rw [hi, Host.tree_set_self]
    · exact Host.tree_set_of_ne hi

theorem unharmed_openAt {h : Host} (hm : l.mount ∈ v.table.mounts)
    (hmode : mode.isWrite = false)
    (hl : (l.mount.access.isWritable || leaves l.mount.dir l.relative mode h) = true) :
    KeepsAt (Unharmed v) (openAt mode l) h := by
  unfold openAt
  rw [hmode, Bool.and_false, if_neg (by simp)]
  rcases Bool.or_eq_true_iff.1 hl with hw | hl
  · exact unharmed_of_offTree hm hw (frame_openWith h)
  · exact (keepsAt_leaves hl).mono fun _ _ => trivial

theorem openAt_of_not_write (hmode : mode.isWrite = false) :
    openAt mode l = l.mount.dir.openWith l.relative mode.toCapStd := by
  unfold openAt
  rw [hmode, Bool.and_false, if_neg (by simp)]

theorem openAt_of_write (hmode : mode.isWrite = true) : openAt mode =
    writing fun l => l.mount.dir.openWith l.relative mode.toCapStd := by
  funext l
  unfold openAt
  rw [hmode, Bool.and_true]
  cases hw : l.mount.access.isWritable with
  | true => rw [writing_of_writable hw, if_neg (by simp)]
  | false => rw [writing_of_readOnly hw, if_pos (by simp)]

theorem unharmed_quiet {path : VirtualPath} {h : Host}
    (hmode : mode.isWrite = false) (hq : v.quiet h path mode = true) :
    KeepsAt (Unharmed v) (v.at path true (openAt mode)) h := by
  refine keepsAt_at (fun l hl hs => ?_) (fun l e _ he => ?_) fun l ⟨direct, hd, hwalk⟩ hl => ?_
  · refine unharmed_openAt (mem_of_locateExact hl) hmode ?_
    simp only [quiet, hl, hs, Bool.false_eq_true, if_false, Bool.and_eq_true] at hq
    exact hq.1
  · rw [openAt_of_not_write hmode] at he ⊢
    exact CapDir.openWith_error he
  · refine unharmed_openAt (mem_of_locate hl) hmode ?_
    simp only [quiet, hd, hl] at hq
    cases hs : direct.mount.shadowsNested with
    | true => simpa [hs] using hq
    | false =>
      obtain ⟨e, he, hk⟩ := hwalk.resolve_left (by simp [hs])
      rw [openAt_of_not_write hmode] at he
      rw [hs, if_neg (by simp), Bool.and_eq_true, he] at hq
      simpa [hk] using hq.2

/-! ## Requests -/

/-- The condition under which a request respects the read-only mounts. -/
def Respects (v : Vfs) (s : Session) : Request → Bool
  | .openWith path mode =>
    if mode.isWrite then v.settled s.host path true else v.quiet s.host path mode
  | .createDir path => v.settled s.host path false
  | .createDirAll path => v.settled s.host path false
  | .createDirWithMode path _ _ => v.settled s.host path false
  | .removeFile path => v.settled s.host path false
  | .removeDir path => v.settled s.host path false
  | .removeDirAll path => v.settled s.host path false
  | .setTimes path _ _ _ => v.settled s.host path false
  | .setPermissions path _ => v.settled s.host path true
  | .dir index (.openFile name mode) =>
    match s.dirs[index]? with
    | none => true
    | some d => mode.isWrite || d.writable || leaves d.inner [name] mode s.host
  | _ => true

def Held (v : Vfs) (d : Dir) : Prop :=
  ∃ m ∈ v.table.mounts, d.inner.tree = m.dir.tree ∧ d.writable = m.access.isWritable

variable {d : Dir} {name : OsStr} {s : Session} {r : Request} {x : Op Host IoError α}

section Perform

variable {h : Host} {path : VirtualPath} {followFinal : Bool}

theorem unharmed_writing {f : Located → Op Host IoError α}
    (hframe : ∀ l, Keeps (OffTree l.mount.dir.tree) (f l)) :
    Keeps (Unharmed v) (v.at path followFinal (writing f)) :=
  keeps_at fun l hl h => keepsAt_writing fun hw =>
    unharmed_of_offTree (mem_of_locateExact hl) hw (hframe l h)

theorem unharmed_dirWriting (hd : v.Held d)
    {f : OsStr → Op Host IoError α} (hframe : ∀ name, Keeps (OffTree d.inner.tree) (f name)) :
    Keeps (Unharmed v) (d.writing name f) := by
  obtain ⟨m, hm, htree, hw⟩ := hd
  refine fun h => keepsAt_dirWriting fun name hwd => ?_
  exact unharmed_of_offTree hm (hw ▸ hwd) (htree ▸ hframe name h)

theorem mem_of_locate_readable (hl : v.locate path followFinal h = .ok l)
    (hw : requireWritable l = .ok ()) : l.mount ∈ v.table.mounts ∧
      l.mount.access.isWritable = true := by
  refine ⟨mem_of_locate hl, ?_⟩
  unfold requireWritable at hw
  by_contra hn
  rw [if_neg hn] at hw
  cases hw

variable {src dst : VirtualPath}

theorem unharmed_rename : KeepsAt (Unharmed v) (v.rename src dst) h := by
  refine keepsAt_read_bind fun l hl => keepsAt_read_bind fun l' _ => ?_
  split_ifs
  · exact keepsAt_check _
  · refine keepsAt_check_bind fun _ hw => keepsAt_check_bind fun _ _ =>
      keepsAt_read_bind fun _ _ => ?_
    obtain ⟨hm, hw⟩ := mem_of_locate_readable hl hw
    exact unharmed_of_offTree hm hw (frame_rename h)

theorem unharmed_copy : KeepsAt (Unharmed v) (v.copy src dst) h := by
  refine keepsAt_read_bind fun l _ => keepsAt_read_bind fun l' hl' =>
    keepsAt_check_bind fun _ hw => ?_
  obtain ⟨hm, hw⟩ := mem_of_locate_readable hl' hw
  exact unharmed_of_offTree hm hw (frame_copy h)

theorem unharmed_hardLink {original link : VirtualPath} :
    KeepsAt (Unharmed v) (v.hardLink original link) h := by
  refine keepsAt_read_bind fun l hl => keepsAt_read_bind fun l' hl' => ?_
  split_ifs with hne
  · exact keepsAt_check _
  · refine keepsAt_check_bind fun _ hw => ?_
    obtain ⟨hm, hw⟩ := mem_of_locate_readable hl' hw
    rw [← MountTable.eq_of_at_eq (mem_of_locate hl) hm (not_not.1 hne)] at hw
    exact unharmed_of_offTree (mem_of_locate hl) hw (frame_edit h)

theorem unharmed_symlink {target : OsStr} : KeepsAt (Unharmed v) (v.symlink path target) h := by
  refine keepsAt_read_bind fun l hl => keepsAt_check_bind fun _ hw =>
    keepsAt_read_bind fun _ _ => ?_
  obtain ⟨hm, hw⟩ := mem_of_locate_readable hl hw
  exact unharmed_of_offTree hm hw (frame_edit h)

theorem unharmed_openWith
    (hr : (if mode.isWrite then v.settled h path true else v.quiet h path mode) = true) :
    KeepsAt (Unharmed v) (v.openWith path mode) h := by
  have hat : KeepsAt (Unharmed v) (v.at path true (openAt mode)) h := by
    cases hmode : mode.isWrite with
    | true =>
      rw [openAt_of_write hmode]
      exact unharmed_writing (fun _ => frame_openWith) h
    | false => exact unharmed_quiet hmode (by simpa [hmode] using hr)
  refine Reads.keepsAt_bind reads_refusesLink fun refused _ => ?_
  split_ifs
  · exact keepsAt_check _
  · exact hat

theorem unharmed_openFile (hd : v.Held d)
    (hr : (mode.isWrite || d.writable || leaves d.inner [name] mode h) = true) :
    KeepsAt (Unharmed v) (d.openFile name mode) h := by
  obtain ⟨m, hm, htree, hw⟩ := hd
  refine keepsAt_check_bind fun name' hname => ?_
  obtain rfl : name = name' := by
    unfold component at hname
    split_ifs at hname
    exact Except.ok.inj hname
  split_ifs with hro
  · exact keepsAt_check _
  · cases hwd : d.writable with
    | true => exact unharmed_of_offTree hm (hw ▸ hwd) (htree ▸ frame_openWith h)
    | false =>
      have hmode : mode.isWrite = false := by simpa [hwd] using hro
      rw [hmode, hwd, Bool.false_or, Bool.false_or] at hr
      exact (keepsAt_leaves hr).mono fun _ _ => trivial

/-- **Requests.** A request that respects the read-only mounts leaves their trees as they are. -/
theorem unharmed_perform (hs : ∀ d ∈ s.dirs, v.Held d)
    (hr : v.Respects s r = true) : KeepsAt (Unharmed v) (r.perform v s.dirs) s.host := by
  cases r with
  | openWith path mode => exact keepsAt_silent (unharmed_openWith hr)
  | metadata path => exact keepsAt_silent (reads_metadata.keepsAt _)
  | symlinkMetadata path => exact keepsAt_silent (keepsAt_read _)
  | facts path follow => exact keepsAt_silent (reads_facts.keepsAt _)
  | access path modes => exact keepsAt_silent (reads_access.keepsAt _)
  | canonicalize path => exact keepsAt_silent (keepsAt_read _)
  | readLink path => exact keepsAt_silent (reads_readLink.keepsAt _)
  | readDirNames path => exact keepsAt_silent (reads_readDirNames.keepsAt _)
  | createDir path => exact keepsAt_silent (unharmed_writing (fun _ => frame_edit) _)
  | createDirAll path => exact keepsAt_silent (unharmed_writing (fun _ => frame_createDirAll) _)
  | createDirWithMode path mode recursive =>
    cases recursive with
    | true => exact keepsAt_silent (unharmed_writing (fun _ => frame_createDirAll) _)
    | false => exact keepsAt_silent (unharmed_writing (fun _ => frame_edit) _)
  | removeFile path => exact keepsAt_silent (unharmed_writing (fun _ => frame_edit) _)
  | removeDir path => exact keepsAt_silent (unharmed_writing (fun _ => frame_edit) _)
  | removeDirAll path => exact keepsAt_silent (unharmed_writing (fun _ => frame_edit) _)
  | rename src dst => exact keepsAt_silent unharmed_rename
  | copy src dst => exact keepsAt_silent unharmed_copy
  | hardLink original link => exact keepsAt_silent unharmed_hardLink
  | symlink path target => exact keepsAt_silent unharmed_symlink
  | setTimes path atime mtime follow =>
    exact keepsAt_silent (unharmed_writing (fun _ => frame_edit) _)
  | setPermissions path mode => exact keepsAt_silent (unharmed_writing (fun _ => frame_edit) _)
  | openDir path => exact keepsAt_read _
  | dir index request =>
    simp only [Request.perform]
    cases hi : s.dirs[index]? with
    | none => exact keepsAt_pure _
    | some d =>
      have hd := hs d (List.mem_of_getElem? hi)
      cases request with
      | openDir name => exact keepsAt_read _
      | openFile name mode =>
        exact keepsAt_silent (unharmed_openFile hd (by simpa [Respects, hi] using hr))
      | metadata name => exact keepsAt_silent (Dir.reads_metadata.keepsAt _)
      | symlinkMetadata name => exact keepsAt_silent (keepsAt_read _)
      | entryNames => exact keepsAt_silent (keepsAt_read _)
      | createDir name => exact keepsAt_silent (unharmed_dirWriting hd (fun _ => frame_edit) _)
      | removeFile name => exact keepsAt_silent (unharmed_dirWriting hd (fun _ => frame_edit) _)
      | removeDir name => exact keepsAt_silent (unharmed_dirWriting hd (fun _ => frame_edit) _)
      | setPermissions name mode =>
        exact keepsAt_silent (unharmed_dirWriting hd (fun _ => frame_edit) _)

/-! ### Refusals -/

theorem refused_of_reads {y : Op Host IoError α} (hy : Reads y) : v.Refused h x y :=
  Or.inl (hy.keepsAt h)

theorem refused_of_unharmed (hx : KeepsAt (Unharmed v) x h) :
    v.Refused h x x := Or.inl hx

theorem refused_check {e : IoError} :
    v.Refused h x (check (.error e)) := refused_of_reads (reads_check _)

theorem refused_silent {y : Op Host IoError α} (hxy : v.Refused h x y) :
    v.Refused h (silent x) (silent y) := by
  rcases hxy with hk | ⟨e, hx, he⟩
  · exact Or.inl (keepsAt_silent hk)
  · exact Or.inr ⟨e, bind_error hx, he⟩

theorem refused_bind {β : Type} {x y : Op Host IoError β} {f g : β → Op Host IoError α}
    (hx : Reads x) (hxy : x = y) (hfg : ∀ b, x h = (.ok b, h) → v.Refused h (f b) (g b)) :
    v.Refused h (x >>= f) (y >>= g) := by
  subst hxy
  cases hr : x h with
  | mk r h' =>
    obtain rfl : h' = h := by rw [← hx h, hr]
    cases r with
    | error e =>
      refine Or.inl ?_
      rw [bind_error hr]
      exact refl_of (Unharmed v) h'
    | ok b =>
      unfold Refused
      rw [bind_ok hr, bind_ok hr]
      exact hfg b hr

theorem refused_locate {f g : Located → Op Host IoError α}
    (hfg : ∀ l, v.locate path followFinal h = .ok l → v.Refused h (f l) (g l.allow)) :
    v.Refused h (read (v.locate path followFinal) >>= f)
      (read (v.allow.locate path followFinal) >>= g) := by
  cases hl : v.locate path followFinal h with
  | error e =>
    refine Or.inl ?_
    rw [read_bind_error (e := e) (by rw [locate_allow, hl]; rfl)]
    exact refl_of (Unharmed v) h
  | ok l =>
    unfold Refused
    rw [read_bind_ok (a := l.allow) (by rw [locate_allow, hl]; rfl), read_bind_ok hl]
    exact hfg l hl

theorem refused_requireWritable {f g : Unit → Op Host IoError α}
    (hw : l.mount.access.isWritable = true → KeepsAt (Unharmed v) (g ()) h) :
    v.Refused h (check (requireWritable l) >>= f) (check (requireWritable l.allow) >>= g) := by
  cases hl : l.mount.access.isWritable with
  | true => exact Or.inl (hw hl)
  | false =>
    refine Or.inr ⟨readOnly l.virtualPath, ?_, Or.inl rfl⟩
    unfold requireWritable
    rw [hl]
    rfl

theorem refused_rename : v.Refused h (v.rename src dst) (v.allow.rename src dst) := by
  refine refused_locate fun l hl => refused_locate fun l' _ => ?_
  change v.Refused h (if l.mount.at ≠ l'.mount.at then _ else _)
    (if l.mount.at ≠ l'.mount.at then _ else _)
  split_ifs
  · exact refused_check
  · refine refused_requireWritable fun hw => keepsAt_check_bind fun _ _ =>
      keepsAt_read_bind fun _ _ => ?_
    exact unharmed_of_offTree (mem_of_locate hl) hw (frame_rename h)

theorem refused_copy : v.Refused h (v.copy src dst) (v.allow.copy src dst) := by
  refine refused_locate fun l _ => refused_locate fun l' hl' => refused_requireWritable fun hw => ?_
  exact unharmed_of_offTree (mem_of_locate hl') hw (frame_copy h)

theorem refused_hardLink {original link : VirtualPath} :
    v.Refused h (v.hardLink original link) (v.allow.hardLink original link) := by
  refine refused_locate fun l hl => refused_locate fun l' hl' => ?_
  change v.Refused h (if l.mount.at ≠ l'.mount.at then _ else _)
    (if l.mount.at ≠ l'.mount.at then _ else _)
  split_ifs with hne
  · exact refused_check
  · refine refused_requireWritable fun hw => ?_
    rw [← MountTable.eq_of_at_eq (mem_of_locate hl) (mem_of_locate hl') (not_not.1 hne)] at hw
    exact unharmed_of_offTree (mem_of_locate hl) hw (frame_edit h)

theorem refused_symlink {target : OsStr} :
    v.Refused h (v.symlink path target) (v.allow.symlink path target) := by
  refine refused_locate fun l hl => refused_requireWritable fun hw =>
    keepsAt_read_bind fun _ _ => ?_
  exact unharmed_of_offTree (mem_of_locate hl) hw (frame_edit h)

theorem refusesLink_allow : v.refusesLink path mode = v.allow.refusesLink path mode := by
  unfold refusesLink isSymlink facts
  rw [at_allow (show ∀ l, factsAt false l.allow = factsAt false l from fun _ => rfl)]

theorem refused_openWith
    (hr : (if mode.isWrite then v.settled h path true else v.quiet h path mode) = true) :
    v.Refused h (v.openWith path mode) (v.allow.openWith path mode) := by
  refine refused_bind reads_refusesLink refusesLink_allow fun refused _ => ?_
  split_ifs
  · exact refused_check
  · cases hmode : mode.isWrite with
    | true =>
      rw [openAt_of_write hmode]
      exact refused_at (fun _ => rfl) (fun _ => frame_openWith)
        (fun l e _ he _ => CapDir.openWith_error he) (by simpa [hmode] using hr)
    | false =>
      rw [at_allow (show ∀ l, openAt mode l.allow = openAt mode l from fun l => by
        rw [openAt_of_not_write hmode, openAt_of_not_write hmode]; rfl)]
      exact refused_of_unharmed (unharmed_quiet hmode (by simpa [hmode] using hr))

theorem refused_edit {f : Located → Proc → Tree → HostPath → Except IoError Edit}
    (hallow : ∀ l, f l.allow = f l) (hs : v.settled h path followFinal = true) :
    v.Refused h (v.at path followFinal (writing fun l => l.mount.dir.edit (f l)))
      (v.allow.at path followFinal (writing fun l => l.mount.dir.edit (f l))) :=
  refused_at (fun l => by rw [hallow]; rfl) (fun _ => frame_edit)
    (fun l e _ he _ => CapDir.edit_error he) hs

theorem refused_createDirAll {mode : Nat} (hs : v.settled h path false = true) :
    v.Refused h (v.at path false (createDirAllAt mode))
      (v.allow.at path false (createDirAllAt mode)) := by
  refine refused_at (fun _ => rfl) (fun _ => frame_createDirAll) (fun l e hl he hk => ?_) hs
  refine CapDir.createDirAll_denied (fun c hc => ?_) he hk
  have hcomp : IsComponent c := by
    refine path.valid c ?_
    rw [components_of_locateExact hl]
    exact List.mem_append_right _ hc
  exact ⟨hcomp.ne_nil, hcomp.ne_dot, hcomp.ne_dotdot⟩

theorem refused_dirWriting (hd : v.Held d)
    {f : OsStr → Op Host IoError α} (hframe : ∀ name, Keeps (OffTree d.inner.tree) (f name)) :
    v.Refused h (d.writing name f) (d.allow.writing name f) := by
  obtain ⟨m, hm, htree, hw⟩ := hd
  unfold Dir.writing
  cases hc : component name with
  | error e => exact refused_check
  | ok name =>
    simp only [check_ok_bind]
    cases hwd : d.writable with
    | true =>
      exact Or.inl (unharmed_of_offTree hm (hw ▸ hwd) (htree ▸ hframe name h))
    | false => exact Or.inr ⟨Dir.readOnly, rfl, Or.inl rfl⟩

theorem refused_openFile (hd : v.Held d)
    (hr : (mode.isWrite || d.writable || leaves d.inner [name] mode h) = true) :
    v.Refused h (d.openFile name mode) (d.allow.openFile name mode) := by
  cases hmode : mode.isWrite with
  | true =>
    obtain ⟨m, hm, htree, hw⟩ := hd
    unfold Dir.openFile
    cases hc : component name with
    | error e => exact refused_check
    | ok name =>
      simp only [check_ok_bind, hmode, Bool.true_and]
      cases hwd : d.writable with
      | true =>
        exact Or.inl (unharmed_of_offTree hm (hw ▸ hwd) (htree ▸ frame_openWith h))
      | false => exact Or.inr ⟨Dir.readOnly, rfl, Or.inl rfl⟩
  | false =>
    have hsame : d.allow.openFile name mode = d.openFile name mode := by
      unfold Dir.openFile
      rw [hmode]
      rfl
    rw [hsame]
    exact refused_of_unharmed (unharmed_openFile hd hr)

/-- **Requests.** A request that would harm a read-only tree over a writable table is refused. -/
theorem refused_perform (hs : ∀ d ∈ s.dirs, v.Held d)
    (hr : v.Respects s r = true) : v.Refused s.host (r.perform v s.dirs)
      (r.perform v.allow (s.dirs.map Dir.allow)) := by
  cases r with
  | openWith path mode => exact refused_silent (refused_openWith hr)
  | metadata path => exact refused_silent (refused_of_reads reads_metadata)
  | symlinkMetadata path => exact refused_silent (refused_of_reads (reads_read _))
  | facts path follow => exact refused_silent (refused_of_reads reads_facts)
  | access path modes => exact refused_silent (refused_of_reads reads_access)
  | canonicalize path => exact refused_silent (refused_of_reads (reads_read _))
  | readLink path => exact refused_silent (refused_of_reads reads_readLink)
  | readDirNames path => exact refused_silent (refused_of_reads reads_readDirNames)
  | createDir path => exact refused_silent (refused_edit (fun _ => rfl) hr)
  | createDirAll path => exact refused_silent (refused_createDirAll hr)
  | createDirWithMode path mode recursive =>
    cases recursive with
    | true => exact refused_silent (refused_createDirAll hr)
    | false => exact refused_silent (refused_edit (fun _ => rfl) hr)
  | removeFile path => exact refused_silent (refused_edit (fun _ => rfl) hr)
  | removeDir path => exact refused_silent (refused_edit (fun _ => rfl) hr)
  | removeDirAll path => exact refused_silent (refused_edit (fun _ => rfl) hr)
  | rename src dst => exact refused_silent refused_rename
  | copy src dst => exact refused_silent refused_copy
  | hardLink original link => exact refused_silent refused_hardLink
  | symlink path target => exact refused_silent refused_symlink
  | setTimes path atime mtime follow => exact refused_silent (refused_edit (fun _ => rfl) hr)
  | setPermissions path mode => exact refused_silent (refused_edit (fun _ => rfl) hr)
  | openDir path => exact refused_of_reads (reads_read _)
  | dir index request =>
    simp only [Request.perform, List.getElem?_map]
    cases hi : s.dirs[index]? with
    | none => exact refused_of_reads (reads_pure _)
    | some d =>
      have hd := hs d (List.mem_of_getElem? hi)
      cases request with
      | openDir name => exact refused_of_reads (reads_read _)
      | openFile name mode =>
        exact refused_silent (refused_openFile hd (by simpa [Respects, hi] using hr))
      | metadata name => exact refused_silent (refused_of_reads Dir.reads_metadata)
      | symlinkMetadata name => exact refused_silent (refused_of_reads (reads_read _))
      | entryNames => exact refused_silent (refused_of_reads (reads_read _))
      | createDir name => exact refused_silent (refused_dirWriting hd fun _ => frame_edit)
      | removeFile name => exact refused_silent (refused_dirWriting hd fun _ => frame_edit)
      | removeDir name => exact refused_silent (refused_dirWriting hd fun _ => frame_edit)
      | setPermissions name mode =>
        exact refused_silent (refused_dirWriting hd fun _ => frame_edit)

end Perform

/-! ## Runs -/

theorem held_openDir {path : VirtualPath} {h : Host} (hd : v.openDir path h = .ok d) :
    v.Held d := by
  unfold openDir locateDir at hd
  cases hl : v.locateFollow path h with
  | error e =>
    rw [hl] at hd
    cases hd
  | ok l =>
    rw [hl] at hd
    cases hdir : dirAt l h with
    | error e =>
      simp [bind, Except.bind, Except.map, hdir] at hd
    | ok inner =>
      obtain rfl : (⟨inner, l.mount.access.isWritable⟩ : Dir) = d := by
        simpa [bind, Except.bind, Except.map, hdir] using hd
      refine ⟨l.mount, mem_of_locate hl, ?_, rfl⟩
      unfold dirAt at hdir
      split_ifs at hdir
      · rw [← Except.ok.inj hdir]
      · obtain ⟨i, -, rfl⟩ := CapDir.ask_map_eq_ok.1 hdir
        rfl

theorem held_dirOpenDir {d' : Dir} (hd : v.Held d) {h : Host}
    (ho : d.openDir name h = .ok d') : v.Held d' := by
  obtain ⟨m, hm, htree, hw⟩ := hd
  unfold Dir.openDir at ho
  cases hc : component name with
  | error e =>
    rw [hc] at ho
    cases ho
  | ok name' =>
    rw [hc] at ho
    cases hi : d.inner.openDir [name'] h with
    | error e => simp [bind, Except.bind, Except.map, hi] at ho
    | ok inner =>
      obtain rfl : (⟨inner, d.writable⟩ : Dir) = d' := by
        simpa [bind, Except.bind, Except.map, hi] using ho
      obtain ⟨i, -, rfl⟩ := CapDir.ask_map_eq_ok.1 hi
      exact ⟨m, hm, htree, hw⟩

omit [Unicode] in
theorem silent_eq_ok {h : Host} {ds : List Dir}
    (hx : silent x h = (.ok ds, h')) : ds = [] := by
  unfold silent at hx
  cases hr : x h with
  | mk r h₁ =>
    cases r with
    | error e =>
      rw [bind_error hr] at hx
      cases (Prod.mk.inj hx).1
    | ok a =>
      rw [bind_ok hr] at hx
      exact (Except.ok.inj (Prod.mk.inj hx).1).symm

theorem held_perform (hs : ∀ d ∈ s.dirs, v.Held d) {ds : List Dir}
    (hr : r.perform v s.dirs s.host = (.ok ds, h')) : ∀ d ∈ ds, v.Held d := by
  have hnone : ∀ {β : Type} {x : Op Host IoError β}, silent x s.host = (.ok ds, h') →
      ∀ d ∈ ds, v.Held d := by
    intro β x hx
    rw [silent_eq_ok hx]
    simp
  cases r with
  | openDir path =>
    cases ho : v.openDir path s.host with
    | error e => simp [Request.perform, ho, Except.map] at hr
    | ok d =>
      obtain ⟨rfl, -⟩ : [d] = ds ∧ _ := by simpa [Request.perform, ho, Except.map] using hr
      simpa using held_openDir ho
  | dir index request =>
    simp only [Request.perform] at hr
    cases hi : s.dirs[index]? with
    | none =>
      rw [hi] at hr
      obtain rfl : [] = ds := Except.ok.inj (Prod.mk.inj hr).1
      simp
    | some d =>
      rw [hi] at hr
      cases request with
      | openDir name =>
        cases ho : d.openDir name s.host with
        | error e => simp [DirRequest.perform, ho, Except.map] at hr
        | ok d' =>
          obtain ⟨rfl, -⟩ : [d'] = ds ∧ _ := by simpa [DirRequest.perform, ho, Except.map] using hr
          simpa using held_dirOpenDir (hs d (List.mem_of_getElem? hi)) ho
      | _ => exact hnone hr
  | _ => exact hnone hr

theorem held_step (hs : ∀ d ∈ s.dirs, v.Held d) (r : Request) :
    ∀ d ∈ (step v s r).dirs, v.Held d := by
  unfold step
  cases hr : r.perform v s.dirs s.host with
  | mk res h' =>
    cases res with
    | error e => exact hs
    | ok ds =>
      intro d hd
      rcases List.mem_append.1 hd with hd | hd
      · exact hs d hd
      · exact held_perform hs hr d hd

/-- **Read-only mounts.** In a run whose requests respect them, the trees of read-only mounts stay
as they were; and a request that over a writable table would change one is refused, and changes
nothing. -/
theorem readOnly_run {h : Host} {rs : List Request}
    (hrs : Run.Along (step v) (fun s r => v.Respects s r = true) ⟨h, []⟩ rs) :
    Unharmed v h (rs.foldl (step v) ⟨h, []⟩).host ∧
      ∀ before r after, rs = before ++ r :: after →
        let s := before.foldl (step v) ⟨h, []⟩
        v.Refused s.host (r.perform v s.dirs) (r.perform v.allow (s.dirs.map Dir.allow)) := by
  have hstep : ∀ s r, (Unharmed v h s.host ∧ ∀ d ∈ s.dirs, v.Held d) → v.Respects s r = true →
      Unharmed v h (step v s r).host ∧ ∀ d ∈ (step v s r).dirs, v.Held d := by
    intro s r ⟨hk, hheld⟩ hr
    refine ⟨?_, held_step hheld r⟩
    rw [host_step]
    exact trans_of (Unharmed v) hk (unharmed_perform hheld hr)
  have hrun : ∀ {rs}, Run.Along (step v) (fun s r => v.Respects s r = true) ⟨h, []⟩ rs →
      Unharmed v h (rs.foldl (step v) ⟨h, []⟩).host ∧
        ∀ d ∈ (rs.foldl (step v) ⟨h, []⟩).dirs, v.Held d :=
    fun hrs => Run.invariant hstep ⟨refl_of (Unharmed v) h, by simp⟩ hrs
  refine ⟨(hrun hrs).1, ?_⟩
  rintro before r after rfl
  obtain ⟨hbefore, hr, -⟩ := Run.along_append.1 hrs
  exact refused_perform (hrun hbefore).2 hr

end Seahaven.Vfs

namespace Seahaven.Vfs

open Host OsStr Op

section Fixture

attribute [local instance] composed

def readmeHost : Host where
  tree _ := Tree.bare.applyAll [.add [] (os "readme.txt") .file ⟨[114], 0o644, 0, 0, 0, 0⟩]
  proc := ⟨0, 0, 0, 0⟩
  permits _ _ _ := true

/-- `/ro`, read-only. -/
def roMount : Mount := ⟨⟨[os "ro"], by decide⟩, ⟨0, 0⟩, none, none, .readOnly, false⟩

def roVfs : Vfs where
  table := .fromMounts [roMount] (by simp)
  roots := by decide
  apart := by decide

def readme : VirtualPath := ⟨[os "ro", os "readme.txt"], by decide⟩

/-- **The flag word is not asked.** An open for reading with `O_TRUNC` in its flag word empties a
file of a read-only mount. -/
theorem readOnly_truncated : (OpenMode.ofRead.withCustomFlags .trunc).isWrite = false ∧
      ¬ Unharmed roVfs readmeHost (step roVfs ⟨readmeHost, []⟩
        (.openWith readme (OpenMode.ofRead.withCustomFlags .trunc))).host := by
  refine ⟨rfl, fun hk => ?_⟩
  have htree := hk 0 ⟨roMount, by decide, rfl, rfl⟩
  have hattr := congrArg (fun t : Tree => (t.attr 1).content) htree
  revert hattr
  decide

/-- Asking to write the file is refused. -/
theorem readOnly_run_write :
    Unharmed roVfs readmeHost (([.openWith readme .ofWrite, .removeFile readme] :
      List Request).foldl (step roVfs) ⟨readmeHost, []⟩).host :=
  (readOnly_run (by
    refine ⟨?_, ?_, trivial⟩
    all_goals decide)).1

end Fixture

end Seahaven.Vfs
