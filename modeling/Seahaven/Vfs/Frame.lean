import Seahaven.Vfs.Dir

/-!
# What an operation keeps

The rules from which every statement about runs is assembled. An operation run by `at` keeps what it
keeps at the two locations it can be run at; an operation that writes does so only in a writable
mount; a call changes at most the tree of the handle it is made on; and the rest only read.
-/

namespace Seahaven.Vfs

open Host OsStr Op

/-- The trees of `S` stay as they are. -/
def Fixed (S : Nat → Prop) (h h' : Host) : Prop := ∀ i, S i → h'.tree i = h.tree i

instance (S : Nat → Prop) : Std.Refl (Fixed S) := ⟨fun _ _ _ => rfl⟩

instance (S : Nat → Prop) : IsTrans Host (Fixed S) :=
  ⟨fun _ _ _ h h' i hi => (h' i hi).trans (h i hi)⟩

theorem Fixed.mono {S S' : Nat → Prop} {h h' : Host} (hf : Fixed S h h')
    (hS : ∀ i, S' i → S i) : Fixed S' h h' := fun i hi => hf i (hS i hi)

def OffTree (i : Nat) : Host → Host → Prop := Fixed (· ≠ i)

instance (i : Nat) : Std.Refl (OffTree i) := inferInstanceAs (Std.Refl (Fixed _))

instance (i : Nat) : IsTrans Host (OffTree i) := inferInstanceAs (IsTrans Host (Fixed _))

theorem offTree_set {i : Nat} {h : Host} {t : Tree} : OffTree i h (h.set i t) :=
  fun _ hj => Host.tree_set_of_ne hj

def Preserves (I : Host → Prop) (h h' : Host) : Prop := I h → I h'

instance (I : Host → Prop) : Std.Refl (Preserves I) := ⟨fun _ h => h⟩

instance (I : Host → Prop) : IsTrans Host (Preserves I) := ⟨fun _ _ _ h h' hI => h' (h hI)⟩

/-! ## Calls change one tree -/

section Frame

variable {d : CapDir} {rel rel' : List OsStr}

theorem frame_edit {f : Proc → Tree → HostPath → Except IoError Edit} :
    Keeps (OffTree d.tree) (d.edit f) :=
  fun _ => CapDir.keepsAt_edit fun _ _ _ _ => offTree_set

theorem frame_openWith {o : OpenOptions} : Keeps (OffTree d.tree) (d.openWith rel o) :=
  fun _ => CapDir.keepsAt_openWith fun _ _ _ _ _ _ _ => offTree_set

theorem frame_createDirAll {mode : Nat} : Keeps (OffTree d.tree) (d.createDirAll mode rel) :=
  CapDir.keeps_createDirAll (fun _ => frame_edit) rel

theorem frame_rename : Keeps (OffTree d.tree) (d.rename rel rel') :=
  fun _ => CapDir.keepsAt_call fun _ _ _ _ _ => offTree_set

theorem frame_copy {src : CapDir} : Keeps (OffTree d.tree) (src.copy rel d rel') := by
  refine fun h => CapDir.keepsAt_copy (fun _ => frame_openWith h) fun mode f h' hf g h'' => ?_
  change OffTree d.tree h'' (h''.set f.dev _)
  rw [(CapDir.openWith_eq_ok hf).1]
  exact offTree_set

end Frame

variable {α : Type}

/-! ## What only reads -/

theorem reads_orNone {x : Op Host IoError α} (hx : Reads x) : Reads (orNone x) :=
  hx.attempt.bind fun _ => reads_pure _

variable [Unicode]

section Reads

variable {l : Located} {follow : Bool}

theorem reads_metadataAt : Reads (metadataAt l) := by
  unfold metadataAt
  split_ifs
  · exact reads_read _
  · refine (reads_read _).bind fun m => ?_
    split_ifs
    · exact (reads_read _).bind fun d => reads_read _
    · refine Reads.bind (fun h => CapDir.openWith_unchanged fun flags hflags => ?_)
        fun f => reads_read _
      obtain rfl : _ = flags := Except.ok.inj hflags
      decide

theorem reads_accessAt {modes : AccessModes} : Reads (accessAt modes l) := by
  unfold accessAt
  split_ifs
  · exact reads_check _
  · exact reads_read _

theorem reads_factsAt : Reads (factsAt follow l) := reads_read _

theorem reads_readLinkAt : Reads (readLinkAt l) := reads_read _

theorem reads_readDirNamesAt : Reads (readDirNamesAt l) :=
  (reads_read _).bind fun _ => reads_read _

variable {v : Vfs} {path : VirtualPath} {op : Located → Op Host IoError α}

theorem reads_careful (hop : ∀ l, Reads (op l)) : Reads (v.careful path follow op) :=
  (reads_read _).bind hop

theorem reads_at (hop : ∀ l, Reads (op l)) : Reads (v.at path follow op) := by
  refine (reads_check _).bind fun direct => ?_
  split_ifs
  · exact reads_careful hop
  · refine (hop direct).attempt.bind fun r => ?_
    cases r with
    | ok a => exact reads_pure a
    | error e =>
      dsimp only
      split_ifs
      · exact reads_careful hop
      · exact reads_check _

theorem reads_facts : Reads (v.facts path follow) := reads_orNone (reads_at fun _ => reads_factsAt)

theorem reads_isSymlink : Reads (v.isSymlink path) := reads_facts.bind fun _ => reads_pure _

theorem reads_refusesLink {mode : OpenMode} : Reads (v.refusesLink path mode) := by
  unfold refusesLink
  split_ifs
  · exact reads_isSymlink
  · exact reads_pure false

theorem reads_metadata : Reads (v.metadata path) := reads_at fun _ => reads_metadataAt

theorem reads_access {modes : AccessModes} : Reads (v.access path modes) :=
  (reads_orNone (reads_at fun _ => reads_accessAt)).bind fun _ => reads_pure _

theorem reads_readLink : Reads (v.readLink path) := reads_at fun _ => reads_readLinkAt

theorem reads_readDirNames : Reads (v.readDirNames path) := reads_at fun _ => reads_readDirNamesAt

theorem Dir.reads_metadata {d : Dir} {name : OsStr} : Reads (d.metadata name) := by
  refine (reads_check _).bind fun name => (reads_read _).bind fun m => ?_
  split_ifs
  · exact (reads_read _).bind fun _ => reads_read _
  · refine Reads.bind (fun h => CapDir.openWith_unchanged fun flags hflags => ?_)
      fun f => reads_read _
    obtain rfl : _ = flags := Except.ok.inj hflags
    decide

end Reads

/-! ## Where an operation is run -/

section At

variable {R : Host → Host → Prop} [Std.Refl R] [IsTrans Host R] {v : Vfs} {path : VirtualPath}
  {followFinal : Bool} {op : Located → Op Host IoError α} {h : Host}

omit [IsTrans Host R] in
theorem keepsAt_careful (hop : ∀ l, v.locate path followFinal h = .ok l → KeepsAt R (op l) h) :
    KeepsAt R (v.careful path followFinal op) h := keepsAt_read_bind hop

/-- Whether `at` goes on to the walk: the mount shadows another, or the first try was refused. -/
def Walks (v : Vfs) (path : VirtualPath) (op : Located → Op Host IoError α) (h : Host) : Prop :=
  ∃ l, v.locateExact path = .ok l ∧ (l.mount.shadowsNested = true ∨
    ∃ e, (op l h).1 = .error e ∧ e.kind = .permissionDenied)

omit [IsTrans Host R] in
/-- **Two routes.** An operation run by `at` keeps what it keeps at the location the path names in
the table and at the one the walk leads to. An operation that failed at the first has to leave the
host as it was for the second to be judged there. -/
theorem keepsAt_at (hdirect : ∀ l, v.locateExact path = .ok l → l.mount.shadowsNested = false →
      KeepsAt R (op l) h)
    (hfail : ∀ l e, v.locateExact path = .ok l → (op l h).1 = .error e → (op l h).2 = h)
    (hcareful : ∀ l, Walks v path op h → v.locate path followFinal h = .ok l →
      KeepsAt R (op l) h) :
    KeepsAt R (v.at path followFinal op) h := by
  refine keepsAt_check_bind fun direct hd => ?_
  split_ifs with hs
  · exact keepsAt_careful fun l => hcareful l ⟨direct, hd, Or.inl hs⟩
  · cases hr : op direct h with
    | mk r h' =>
      cases r with
      | ok a =>
        have hk := hdirect direct hd (by simpa using hs)
        rw [KeepsAt, hr] at hk
        rw [KeepsAt, bind_ok (show (op direct).attempt h = (.ok (.ok a), h') by
          rw [attempt_apply, hr])]
        exact hk
      | error e =>
        obtain rfl : h' = h := by
          have := hfail direct e hd (by rw [hr])
          rwa [hr] at this
        rw [KeepsAt, bind_ok (show (op direct).attempt h' = (.ok (.error e), h') by
          rw [attempt_apply, hr])]
        dsimp only
        split_ifs with hk
        · exact keepsAt_careful fun l =>
            hcareful l ⟨direct, hd, Or.inr ⟨e, by rw [hr], hk⟩⟩
        · exact refl_of R h'

theorem keeps_at (hop : ∀ l, v.locateExact l.virtualPath = .ok l → Keeps R (op l)) :
    Keeps R (v.at path followFinal op) := by
  have hcareful : Keeps R (v.careful path followFinal op) := fun h =>
    keepsAt_careful fun l hl => hop l (exact_of_locate hl) h
  refine fun h => keepsAt_check_bind fun direct hd => ?_
  split_ifs
  · exact hcareful h
  · have hexact : v.locateExact direct.virtualPath = .ok direct := by
      rwa [(locateExact_eq_ok.1 hd).2]
    refine keepsAt_bind (keepsAt_attempt.2 (hop direct hexact h)) fun r h' _ => ?_
    cases r with
    | ok a => exact keepsAt_pure a
    | error e =>
      dsimp only
      split_ifs
      · exact hcareful h'
      · exact keepsAt_check _

omit [IsTrans Host R] in
theorem keepsAt_writing {f : Located → Op Host IoError α} {l : Located}
    (hf : l.mount.access.isWritable = true → KeepsAt R (f l) h) : KeepsAt R (writing f l) h := by
  refine keepsAt_check_bind fun _ hw => hf ?_
  unfold requireWritable at hw
  by_contra hn
  rw [if_neg hn] at hw
  cases hw

omit [IsTrans Host R] in
theorem keepsAt_dirWriting {d : Dir} {name : OsStr} {f : OsStr → Op Host IoError α}
    (hf : ∀ name, d.writable = true → KeepsAt R (f name) h) : KeepsAt R (d.writing name f) h := by
  refine keepsAt_check_bind fun name _ => ?_
  split_ifs with hw
  · exact keepsAt_check _
  · exact hf name (by simpa using hw)

omit [Unicode] [Std.Refl R] [IsTrans Host R] in
theorem keepsAt_silent {x : Op Host IoError α} (hx : KeepsAt R x h) : KeepsAt R (silent x) h := by
  unfold silent
  cases hr : x h with
  | mk r h' =>
    rw [KeepsAt, hr] at hx
    cases r with
    | error e =>
      rw [KeepsAt, bind_error hr]
      exact hx
    | ok a =>
      rw [KeepsAt, bind_ok hr]
      exact hx

end At

end Seahaven.Vfs
