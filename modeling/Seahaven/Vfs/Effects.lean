import Seahaven.Vfs.Frame
import Seahaven.Vfs.Names

/-!
# What a request changes

Once and for all what a request of the `Vfs` may do to the host: `Asks` lists the edits it can come
down to, each with what was found where it was tried. A relation that every such edit keeps is kept
by the request (`keepsAt_perform`), and so along a run.
-/

namespace Seahaven.Vfs

open Host OsStr Op

variable [Unicode]

/-- A request of the `Vfs` itself, not of a capability opened from it. -/
def Request.OfVfs : Request → Prop
  | .dir _ _ => False
  | _ => True

instance (r : Request) : Decidable r.OfVfs := by
  cases r <;> unfold Request.OfVfs <;> infer_instance

/-- The locations an operation is run at by `at`. -/
def RunsAt {α : Type} (v : Vfs) (h : Host) (path : VirtualPath) (followFinal : Bool)
    (op : Located → Op Host IoError α) (l : Located) : Prop :=
  (v.locateExact path = .ok l ∧ l.mount.shadowsNested = false) ∨
    (Walks v path op h ∧ v.locate path followFinal h = .ok l)

/-- An edit a request may come down to in the tree of a mount. -/
inductive Asks (v : Vfs) (h : Host) : Request → Mount → Edit → Prop
  | make {r : Request} {m : Mount} {dir : HostPath} {name : OsStr} {kind : Kind} {a : Attr}
      (hk : kind = .dir ∨ kind = .file) : Asks v h r m (.add dir name kind a)
  | truncate {path : VirtualPath} {mode : OpenMode} {l : Located} {follow : Bool} {p : HostPath}
      {n : Node} {a : Attr} (hl : RunsAt v h path true (openAt mode) l)
      (hp : (h.tree l.mount.dir.tree).lookup [] follow l.relative = .ok p)
      (hn : (h.tree l.mount.dir.tree).node p = some n) :
      Asks v h (.openWith path mode) l.mount (.set n.ino a)
  | removeFile {path : VirtualPath} {l : Located} {dir : HostPath} {name : OsStr} {n : Node}
      (hl : RunsAt v h path false removeFileAt l)
      (hp : (h.tree l.mount.dir.tree).lookup [] false l.relative = .ok (dir ++ [name]))
      (hn : (h.tree l.mount.dir.tree).node (dir ++ [name]) = some n) (hk : n.kind ≠ .dir) :
      Asks v h (.removeFile path) l.mount (.prune dir name)
  | removeDir {path : VirtualPath} {l : Located} {dir : HostPath} {name : OsStr}
      (hl : RunsAt v h path false removeDirAt l)
      (hp : (h.tree l.mount.dir.tree).lookup [] false l.relative = .ok (dir ++ [name]))
      (hempty : (h.tree l.mount.dir.tree).names (dir ++ [name]) = []) :
      Asks v h (.removeDir path) l.mount (.prune dir name)
  | removeDirAll {path : VirtualPath} {l : Located} {dir : HostPath} {name : OsStr}
      (hl : RunsAt v h path false removeDirAllAt l) (hw : l.mount.access.isWritable = true)
      (hp : (h.tree l.mount.dir.tree).lookup [] false l.relative = .ok (dir ++ [name])) :
      Asks v h (.removeDirAll path) l.mount (.prune dir name)
  | rename {src dst : VirtualPath} {l l' : Located} {sdir ddir : HostPath} {sname dname : OsStr}
      {n : Node} (hl : v.locate src false h = .ok l) (hl' : v.locate dst false h = .ok l')
      (hm : l'.mount = l.mount) (hw : l.mount.access.isWritable = true)
      (hstays : movedLinkStays l l' h = .ok ())
      (hp : (h.tree l.mount.dir.tree).lookup [] false l.relative = .ok (sdir ++ [sname]))
      (hp' : (h.tree l.mount.dir.tree).lookup [] false l'.relative = .ok (ddir ++ [dname]))
      (hn : (h.tree l.mount.dir.tree).node (sdir ++ [sname]) = some n)
      (hempty : ∀ m, (h.tree l.mount.dir.tree).node (ddir ++ [dname]) = some m → m.kind = .dir →
        (h.tree l.mount.dir.tree).names (ddir ++ [dname]) = []) :
      Asks v h (.rename src dst) l.mount (.move (sdir ++ [sname]) ddir dname)
  | copy {src dst : VirtualPath} {l : Located} {i : Nat} {a : Attr}
      (hl : v.locate dst false h = .ok l) (hw : l.mount.access.isWritable = true)
      (hi : i = (h.tree l.mount.dir.tree).next ∨
        ∃ p n, (h.tree l.mount.dir.tree).lookup [] true l.relative = .ok p ∧
          (h.tree l.mount.dir.tree).node p = some n ∧ n.ino = i) :
      Asks v h (.copy src dst) l.mount (.set i a)
  | hardLink {original link : VirtualPath} {l l' : Located} {p dir : HostPath} {name : OsStr}
      {n : Node} (hl : v.locate original false h = .ok l) (hl' : v.locate link false h = .ok l')
      (hm : l'.mount = l.mount) (hw : l.mount.access.isWritable = true)
      (hp : (h.tree l.mount.dir.tree).lookup [] false l.relative = .ok p)
      (hn : (h.tree l.mount.dir.tree).node p = some n)
      (hp' : (h.tree l.mount.dir.tree).lookup [] false l'.relative = .ok (dir ++ [name])) :
      Asks v h (.hardLink original link) l.mount (.alias p dir name)
  | symlink {path : VirtualPath} {target stored : OsStr} {l : Located} {dir : HostPath}
      {name : OsStr} {a : Attr} (hl : v.locate path false h = .ok l)
      (hs : v.storedTarget l target h = .ok stored)
      (hp : (h.tree l.mount.dir.tree).lookup [] false l.relative = .ok (dir ++ [name])) :
      Asks v h (.symlink path target) l.mount (.add dir name (.link stored) a)
  | setTimes {path : VirtualPath} {atime mtime : Int} {follow : Bool} {l : Located} {p : HostPath}
      {n : Node} {a : Attr} (hl : RunsAt v h path false (setTimesAt atime mtime follow) l)
      (hw : l.mount.access.isWritable = true)
      (hp : (h.tree l.mount.dir.tree).lookup [] follow l.relative = .ok p)
      (hn : (h.tree l.mount.dir.tree).node p = some n) :
      Asks v h (.setTimes path atime mtime follow) l.mount (.set n.ino a)
  | setPermissions {path : VirtualPath} {mode : Nat} {l : Located} {p : HostPath} {n : Node}
      {a : Attr} (hl : RunsAt v h path true (setPermissionsAt mode) l)
      (hp : (h.tree l.mount.dir.tree).lookup [] true l.relative = .ok p)
      (hn : (h.tree l.mount.dir.tree).node p = some n) :
      Asks v h (.setPermissions path mode) l.mount (.set n.ino a)

variable {v : Vfs} {h : Host} {α : Type} {path : VirtualPath} {followFinal : Bool}

theorem RunsAt.exact {op : Located → Op Host IoError α} {l : Located}
    (hl : RunsAt v h path followFinal op l) : v.locateExact l.virtualPath = .ok l := by
  rcases hl with ⟨hl, -⟩ | ⟨-, hl⟩
  · rwa [(locateExact_eq_ok.1 hl).2]
  · exact exact_of_locate hl

/-- Every edit the request may come down to keeps `R`. Only an edit that is `Plain` may be made
after another. -/
def Grants (R : Host → Host → Prop) (v : Vfs) (h : Host) (r : Request) : Prop :=
  ∀ h' m e t, m ∈ v.table.mounts → Asks v h r m e → (e.Plain ∨ h' = h) →
    (h'.tree m.dir.tree).apply e = .ok t → R h' (h'.set m.dir.tree t)

theorem isWritable_of_require {l : Located} (hw : requireWritable l = .ok ()) :
    l.mount.access.isWritable = true := by
  unfold requireWritable at hw
  by_contra hn
  rw [if_neg hn] at hw
  cases hw

theorem writing_error {f : Located → Op Host IoError α} {l : Located} {e : IoError}
    (hf : (f l h).1 = .error e → (f l h).2 = h) (he : (writing f l h).1 = .error e) :
    (writing f l h).2 = h := by
  unfold writing at he ⊢
  cases hw : requireWritable l with
  | error e => rfl
  | ok u =>
    rw [hw, check_ok_bind] at he
    rw [check_ok_bind]
    exact hf he

section Perform

variable {R : Host → Host → Prop} [Std.Refl R] [IsTrans Host R]

omit [IsTrans Host R] in
theorem keepsAt_editAt {l : Located} (hl : v.locateExact l.virtualPath = .ok l)
    {f : Proc → Tree → HostPath → Except IoError Edit}
    (hf : ∀ e t, f h.proc (h.tree l.mount.dir.tree) [] = .ok e →
      (h.tree l.mount.dir.tree).apply e = .ok t → R h (h.set l.mount.dir.tree t)) :
    KeepsAt R (l.mount.dir.edit f) h := by
  refine CapDir.keepsAt_edit fun e t hask ht => hf e t ?_ ht
  obtain ⟨root, hroot, he⟩ := CapDir.ask_eq_ok.1 hask
  rwa [Option.some.inj (hroot.symm.trans (pathOf_root hl))] at he

omit [IsTrans Host R] in
theorem keepsAt_at_edit (f : Located → Proc → Tree → HostPath → Except IoError Edit)
    (hf : ∀ l, RunsAt v h path followFinal (writing fun l => l.mount.dir.edit (f l)) l →
      l.mount.access.isWritable = true → ∀ e t, f l h.proc (h.tree l.mount.dir.tree) [] = .ok e →
      (h.tree l.mount.dir.tree).apply e = .ok t → R h (h.set l.mount.dir.tree t)) :
    KeepsAt R (v.at path followFinal (writing fun l => l.mount.dir.edit (f l))) h := by
  have hrun : ∀ l, RunsAt v h path followFinal (writing fun l => l.mount.dir.edit (f l)) l →
      KeepsAt R (writing (fun l => l.mount.dir.edit (f l)) l) h := fun l hl =>
    keepsAt_writing fun hw => keepsAt_editAt hl.exact (hf l hl hw)
  exact keepsAt_at (fun l hl hs => hrun l (Or.inl ⟨hl, hs⟩))
    (fun l e _ he => writing_error (fun he => CapDir.edit_error he) he)
    fun l hw hl => hrun l (Or.inr ⟨hw, hl⟩)

variable {r : Request} (hR : Grants R v h r)

include hR

omit [IsTrans Host R] in
theorem keepsAt_mkdir {l : Located} (hl : v.locateExact l.virtualPath = .ok l) {mode : Nat}
    (rel : List OsStr) : Keeps R (l.mount.dir.createDir mode rel) := fun h' =>
  keepsAt_editAt hl fun e t he ht => by
    obtain ⟨dir, name, -, rfl⟩ := Tree.mkdir_eq_ok he
    exact hR h' l.mount _ t (mem_of_locateExact hl) (.make (Or.inl rfl)) (Or.inl trivial) ht

theorem keepsAt_createDirAt {mode : Nat} :
    KeepsAt R (v.at path followFinal (createDirAt mode)) h :=
  keeps_at (fun _ hl h => keepsAt_writing fun _ => keepsAt_mkdir hR hl _ h) h

theorem keepsAt_createDirAllAt {mode : Nat} :
    KeepsAt R (v.at path followFinal (createDirAllAt mode)) h :=
  keeps_at (fun _ hl h => keepsAt_writing fun _ =>
    CapDir.keeps_createDirAll (fun rel => keepsAt_mkdir hR hl rel) _ h) h

omit [IsTrans Host R] in
theorem keepsAt_openAt {mode : OpenMode} (hr : r = .openWith path mode) {l : Located}
    (hl : RunsAt v h path true (openAt mode) l) : KeepsAt R (openAt mode l) h := by
  subst hr
  unfold openAt
  split_ifs
  · exact keepsAt_check _
  · refine CapDir.keepsAt_openWith fun flags n e t _ hopen ht => ?_
    obtain ⟨root, hroot, hopen⟩ := CapDir.ask_eq_ok.1 hopen
    obtain rfl := Option.some.inj (hroot.symm.trans (pathOf_root hl.exact))
    refine hR h l.mount e t (mem_of_locateExact hl.exact) ?_ (Or.inr rfl) ht
    obtain ⟨-, p, hp, ⟨-, -, dir, name, -, rfl⟩ | ⟨-, -, -, hn, -, rfl⟩⟩ := Tree.openat_eq_ok hopen
    · exact .make (Or.inr rfl)
    · exact .truncate hl hp hn

omit [Unicode] [Std.Refl R] [IsTrans Host R] hR in
theorem openAt_error [Unicode] {mode : OpenMode} {l : Located} {e : IoError}
    (he : (openAt mode l h).1 = .error e) : (openAt mode l h).2 = h := by
  unfold openAt at he ⊢
  split_ifs with hro
  · rfl
  · rw [if_neg hro] at he
    exact CapDir.openWith_error he

omit [IsTrans Host R] in
theorem keepsAt_openWith {mode : OpenMode} (hr : r = .openWith path mode) :
    KeepsAt R (v.openWith path mode) h := by
  refine Reads.keepsAt_bind reads_refusesLink fun refused _ => ?_
  split_ifs
  · exact keepsAt_check _
  · exact keepsAt_at (fun l hl hs => keepsAt_openAt hR hr (Or.inl ⟨hl, hs⟩))
      (fun l e _ he => openAt_error he) fun l hw hl => keepsAt_openAt hR hr (Or.inr ⟨hw, hl⟩)

omit [IsTrans Host R] in
theorem keepsAt_rename {src dst : VirtualPath} (hr : r = .rename src dst) :
    KeepsAt R (v.rename src dst) h := by
  subst hr
  refine keepsAt_read_bind fun l hl => keepsAt_read_bind fun l' hl' => ?_
  split_ifs with hne
  · exact keepsAt_check _
  · refine keepsAt_check_bind fun _ hw => keepsAt_check_bind fun _ _ =>
      keepsAt_read_bind fun _ hstays => CapDir.keepsAt_call fun _ e t hask ht => ?_
    obtain ⟨e', he', heq⟩ := CapDir.ask_map_eq_ok.1 hask
    obtain rfl : e' = some e := (Prod.mk.inj heq).2
    obtain ⟨root, hroot, he⟩ := CapDir.ask_eq_ok.1 he'
    obtain rfl := Option.some.inj (hroot.symm.trans (pathOf_root (exact_of_locate hl)))
    obtain ⟨sdir, sname, ddir, dname, n, hp, hp', hn, hempty, rfl⟩ := Tree.rename_eq_ok he
    have hm := MountTable.eq_of_at_eq (mem_of_locate hl) (mem_of_locate hl') (not_not.1 hne)
    exact hR h l.mount _ t (mem_of_locate hl)
      (.rename hl hl' hm.symm (isWritable_of_require hw) hstays hp hp' hn hempty) (Or.inr rfl) ht

theorem keepsAt_copy {src dst : VirtualPath} (hr : r = .copy src dst) :
    KeepsAt R (v.copy src dst) h := by
  subst hr
  refine keepsAt_read_bind fun l _ => keepsAt_read_bind fun l' hl' =>
    keepsAt_check_bind fun _ hw => ?_
  have hm := mem_of_locate hl'
  have hroot : (h.tree l'.mount.dir.tree).pathOf l'.mount.dir.ino = some [] :=
    pathOf_root (exact_of_locate hl')
  -- the file written is new or what the path leads to
  have hflags : ∀ {mode flags}, (CapDir.copyTo mode).oflags = .ok flags →
      Tree.followsFinal flags = true := fun hflags => by
    obtain rfl : _ = _ := Except.ok.inj hflags
    show Tree.followsFinal
      (.cloexec ||| .wronly ||| (.creat ||| .trunc) ||| (0 &&& ~~~.accmode)) = true
    decide
  have hw := isWritable_of_require hw
  refine CapDir.keepsAt_copy (fun mode => CapDir.keepsAt_openWith fun flags n e t hf hopen ht => ?_)
    fun mode f h' hopen g h'' => keepsAt_change fun _ h₃ hset => ?_
  · obtain ⟨root, hroot', hopen⟩ := CapDir.ask_eq_ok.1 hopen
    obtain rfl := Option.some.inj (hroot.symm.trans hroot')
    refine hR h l'.mount e t hm ?_ (Or.inr rfl) ht
    obtain ⟨-, p, hp, ⟨-, -, dir, name, -, rfl⟩ | ⟨-, -, -, hn, -, rfl⟩⟩ := Tree.openat_eq_ok hopen
    · exact .make (Or.inr rfl)
    · rw [hflags hf] at hp
      exact .copy hl' hw (Or.inr ⟨p, n, hp, hn, rfl⟩)
  · obtain ⟨-, rfl⟩ := Prod.mk.inj (Except.ok.inj hset)
    obtain ⟨hdev, flags, root, hf, hroot', hino⟩ := CapDir.openWith_eq_ok hopen
    obtain rfl := Option.some.inj (hroot.symm.trans hroot')
    rw [hdev]
    refine hR h'' l'.mount (.set f.node.ino _) _ hm (.copy hl' hw ?_) (Or.inl trivial) rfl
    rcases hino with hino | ⟨p, hp, hn⟩
    · exact Or.inl hino
    · rw [hflags hf] at hp
      exact Or.inr ⟨p, f.node, hp, hn, rfl⟩

omit [IsTrans Host R] in
theorem keepsAt_hardLink {original link : VirtualPath} (hr : r = .hardLink original link) :
    KeepsAt R (v.hardLink original link) h := by
  subst hr
  refine keepsAt_read_bind fun l hl => keepsAt_read_bind fun l' hl' => ?_
  split_ifs with hne
  · exact keepsAt_check _
  · refine keepsAt_check_bind fun _ hw => keepsAt_editAt (exact_of_locate hl) fun e t he ht => ?_
    have hm := MountTable.eq_of_at_eq (mem_of_locate hl) (mem_of_locate hl') (not_not.1 hne)
    obtain ⟨p, n, dir, name, hp, hn, -, hp', rfl⟩ := Tree.link_eq_ok he
    exact hR h l.mount _ t (mem_of_locate hl)
      (.hardLink hl hl' hm.symm (hm ▸ isWritable_of_require hw) hp hn hp') (Or.inr rfl) ht

omit [IsTrans Host R] in
theorem keepsAt_symlink {target : OsStr} (hr : r = .symlink path target) :
    KeepsAt R (v.symlink path target) h := by
  subst hr
  refine keepsAt_read_bind fun l hl => keepsAt_check_bind fun _ _ =>
    keepsAt_read_bind fun stored hs => keepsAt_editAt (exact_of_locate hl) fun e t he ht => ?_
  obtain ⟨dir, name, hp, rfl⟩ := Tree.symlink_eq_ok he
  exact hR h l.mount _ t (mem_of_locate hl) (.symlink hl hs hp) (Or.inr rfl) ht

/-- **What a request keeps.** A relation that every edit a request may come down to keeps is kept by
the request. -/
theorem keepsAt_perform (hvfs : r.OfVfs) (dirs : List Dir) : KeepsAt R (r.perform v dirs) h := by
  cases r with
  | openWith path mode => exact keepsAt_silent (keepsAt_openWith hR rfl)
  | metadata path => exact keepsAt_silent (reads_metadata.keepsAt _)
  | symlinkMetadata path => exact keepsAt_silent (keepsAt_read _)
  | facts path follow => exact keepsAt_silent (reads_facts.keepsAt _)
  | access path modes => exact keepsAt_silent (reads_access.keepsAt _)
  | canonicalize path => exact keepsAt_silent (keepsAt_read _)
  | readLink path => exact keepsAt_silent (reads_readLink.keepsAt _)
  | readDirNames path => exact keepsAt_silent (reads_readDirNames.keepsAt _)
  | createDir path => exact keepsAt_silent (keepsAt_createDirAt hR)
  | createDirAll path => exact keepsAt_silent (keepsAt_createDirAllAt hR)
  | createDirWithMode path mode recursive =>
    cases recursive with
    | true => exact keepsAt_silent (keepsAt_createDirAllAt hR)
    | false => exact keepsAt_silent (keepsAt_createDirAt hR)
  | removeFile path =>
    refine keepsAt_silent (keepsAt_at_edit (fun l _ t root => t.unlink root l.relative)
      fun l hl _ e t he ht => ?_)
    obtain ⟨dir, name, n, hp, hn, hk, rfl⟩ := Tree.unlink_eq_ok he
    exact hR h _ _ t (mem_of_locateExact hl.exact) (.removeFile hl hp hn hk) (Or.inr rfl) ht
  | removeDir path =>
    refine keepsAt_silent (keepsAt_at_edit (fun l _ t root => t.rmdir root l.relative)
      fun l hl _ e t he ht => ?_)
    obtain ⟨dir, name, hp, hempty, rfl⟩ := Tree.rmdir_eq_ok he
    exact hR h _ _ t (mem_of_locateExact hl.exact) (.removeDir hl hp hempty) (Or.inr rfl) ht
  | removeDirAll path =>
    refine keepsAt_silent (keepsAt_at_edit (fun l _ t root => t.removeTree root l.relative)
      fun l hl hw e t he ht => ?_)
    obtain ⟨dir, name, hp, rfl⟩ := Tree.removeTree_eq_ok he
    exact hR h _ _ t (mem_of_locateExact hl.exact) (.removeDirAll hl hw hp) (Or.inr rfl) ht
  | rename src dst => exact keepsAt_silent (keepsAt_rename hR rfl)
  | copy src dst => exact keepsAt_silent (keepsAt_copy hR rfl)
  | hardLink original link => exact keepsAt_silent (keepsAt_hardLink hR rfl)
  | symlink path target => exact keepsAt_silent (keepsAt_symlink hR rfl)
  | setTimes path atime mtime follow =>
    refine keepsAt_silent (keepsAt_at_edit
      (fun l _ t root => t.utimes root follow l.relative atime mtime) fun l hl hw e t he ht => ?_)
    obtain ⟨p, n, a, hp, hn, rfl⟩ := Tree.utimes_eq_ok he
    exact hR h _ _ t (mem_of_locateExact hl.exact) (.setTimes hl hw hp hn) (Or.inr rfl) ht
  | setPermissions path mode =>
    refine keepsAt_silent (keepsAt_at_edit (fun l _ t root => t.chmod root l.relative mode)
      fun l hl _ e t he ht => ?_)
    obtain ⟨p, n, a, hp, hn, rfl⟩ := Tree.chmod_eq_ok he
    exact hR h _ _ t (mem_of_locateExact hl.exact) (.setPermissions hl hp hn) (Or.inr rfl) ht
  | openDir path => exact keepsAt_read _
  | dir index request => exact hvfs.elim

end Perform

/-! ## Invariants of the mounts' trees -/

def Holds (v : Vfs) (I : Mount → Tree → Prop) (h : Host) : Prop :=
  ∀ m ∈ v.table.mounts, I m (h.tree m.dir.tree)

theorem holds_set {I : Mount → Tree → Prop} (hI : v.Holds I h) {m : Mount}
    (hm : m ∈ v.table.mounts) {t : Tree} (ht : I m t) : v.Holds I (h.set m.dir.tree t) := by
  intro m' hm'
  by_cases htree : m'.dir.tree = m.dir.tree
  · rw [htree, tree_set_self, eq_of_tree_eq hm' hm htree]
    exact ht
  · rw [tree_set_of_ne htree]
    exact hI m' hm'

theorem grants_of_apply {I : Mount → Tree → Prop} {r : Request}
    (hstep : ∀ h' : Host, ∀ m e t, m ∈ v.table.mounts → Asks v h r m e → (e.Plain ∨ h' = h) →
      (h'.tree m.dir.tree).apply e = .ok t → I m (h'.tree m.dir.tree) → I m t) :
    Grants (Preserves (v.Holds I)) v h r := fun h' m e t hm hask hplain ht hI =>
  holds_set hI hm (hstep h' m e t hm hask hplain ht (hI m hm))

/-! ## Links a request makes -/

theorem storedTarget_eq_ok {l : Located} {target stored : OsStr}
    (hs : v.storedTarget l target h = .ok stored) : ∃ landing lexical,
      v.locateExact landing = .ok lexical ∧ stored = relativeFrom l.relative lexical.relative ∧
        storedTargetStaysInMount l.relative stored = true := by
  unfold storedTarget at hs
  split at hs
  · cases hs
  · rename_i landing _
    obtain ⟨lexical, hlex, hs⟩ := except_bind_eq_ok.1 hs
    split_ifs at hs
    obtain ⟨followed, -, hs⟩ := except_bind_eq_ok.1 hs
    dsimp only at hs
    split_ifs at hs with _ hstays
    obtain rfl := Except.ok.inj hs
    exact ⟨landing, lexical, hlex, rfl, hstays⟩

theorem components_relativeFrom {link target : List OsStr} (ht : ∀ c ∈ target, IsComponent c)
    {c : OsStr} (hc : c ∈ (relativeFrom link target).components) :
    c = dot ∨ c = dotdot ∨ c ∈ target := by
  unfold relativeFrom at hc
  dsimp only at hc
  split_ifs at hc
  · exact Or.inl (by simpa [OsStr.components, split_of_slash_not_mem] using hc)
  · rw [components_join] at hc
    · rcases List.mem_append.1 hc with hc | hc
      · exact Or.inr (Or.inl (List.eq_of_mem_replicate hc))
      · exact Or.inr (Or.inr (List.drop_subset _ _ hc))
    · intro d hd
      rcases List.mem_append.1 hd with hd | hd
      · rw [List.eq_of_mem_replicate hd]
        exact ⟨by decide, by decide⟩
      · have := ht d (List.drop_subset _ _ hd)
        exact ⟨this.ne_nil, this.no_slash⟩

theorem spelled_of_refused {c : OsStr} {e : PathError} (hc : validateComponent c = .error e) :
    Spelled c := fun d hd => by
  rw [hc] at hd
  cases hd

theorem spelled_dot : Spelled dot := spelled_of_refused (e := .trailingDotOrSpace dot) rfl

theorem spelled_dotdot : Spelled dotdot := spelled_of_refused (e := .trailingDotOrSpace dotdot) rfl

theorem linksAre_of_asks {S : OsStr → Prop}
    (hS : ∀ link target, (∀ c ∈ target, IsComponent c) → S (relativeFrom link target)) {r : Request}
    {m : Mount} {e : Edit} {t t' : Tree} (hask : Asks v h r m e) (hs : t.LinksAre fun _ => S)
    (ht : t.apply e = .ok t') : t'.LinksAre fun _ => S := by
  refine hs.apply ?_ ht
  cases hask with
  | make hk =>
    rcases hk with rfl | rfl
    · trivial
    · trivial
  | symlink hl hst hp =>
    obtain ⟨landing, lexical, hlex, rfl, -⟩ := storedTarget_eq_ok hst
    exact hS _ _ fun c hc => isComponent_of_exact hlex hc
  | hardLink => exact fun target hlink => hs _ target hlink
  | rename => exact fun s target hlink => hs _ target hlink
  | truncate => trivial
  | removeFile => trivial
  | removeDir => trivial
  | removeDirAll => trivial
  | copy => trivial
  | setTimes => trivial
  | setPermissions => trivial

theorem spelledLinks_of_asks {r : Request} {m : Mount} {e : Edit} {t t' : Tree}
    (hask : Asks v h r m e) (hs : SpelledLinks t) (ht : t.apply e = .ok t') : SpelledLinks t' := by
  refine linksAre_of_asks (fun link target htarget c hc => ?_) hask hs ht
  rcases components_relativeFrom htarget hc with rfl | rfl | hc
  · exact spelled_dot
  · exact spelled_dotdot
  · exact (htarget c hc).queued.spelled

end Seahaven.Vfs
