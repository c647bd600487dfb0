import Seahaven.Vfs.Final
import Seahaven.Vfs.Listing

/-!
# Operations through a final link

What an operation that follows a final link reads or changes, and what `canonicalize` names.

1. `Faithful`: the object is the one `canonicalize` names, in the mount whose access mode counts.
2. `Sure`: when that is so. Operations run where `locate` has followed the last link are faithful;
   `set_times` and the destination of `copy`, run at the link, are unless the host's way on from
   there passes what a nested mount covers.
-/

namespace Seahaven.Vfs

open Host OsStr Op

variable [Unicode]

/-! ## Named objects -/

variable (v : Vfs) (h : Host)

/-- The location `canonicalize` names. -/
def Named (p : VirtualPath) (l : Located) : Prop :=
  v.canonicalize p h = .ok l.virtualPath ∧ v.locateExact l.virtualPath = .ok l

/-- The inode at `r` beneath the directory of `m`, or the one a file made there gets. -/
def inodeAt (m : Mount) (r : HostPath) : Nat :=
  match (h.tree m.dir.tree).node r with
  | some n => n.ino
  | none => (h.tree m.dir.tree).next

/-- Nothing changes but the entry `r` beneath the directory of `m`, and what the inode `i` of that
directory carries. -/
structure OnlyAt (m : Mount) (r : HostPath) (i : Nat) (h h' : Host) : Prop where
  tree : ∀ j, j ≠ m.dir.tree → h'.tree j = h.tree j
  node : ∀ q, q ≠ r → (h'.tree m.dir.tree).node q = (h.tree m.dir.tree).node q
  attr : ∀ j, j ≠ i → (h'.tree m.dir.tree).attr j = (h.tree m.dir.tree).attr j

instance (m : Mount) (r : HostPath) (i : Nat) : Std.Refl (OnlyAt m r i) :=
  ⟨fun _ => ⟨fun _ _ => rfl, fun _ _ => rfl, fun _ _ => rfl⟩⟩

instance (m : Mount) (r : HostPath) (i : Nat) : IsTrans Host (OnlyAt m r i) where
  trans _ _ _ h h' := ⟨fun j hj => (h'.tree j hj).trans (h.tree j hj),
    fun q hq => (h'.node q hq).trans (h.node q hq), fun j hj => (h'.attr j hj).trans (h.attr j hj)⟩

/-- Whether what is opened is what the path names: neither a bare reference to it nor an unnamed
file in it. -/
def OpenMode.opensNamed (m : OpenMode) : Bool :=
  !m.customFlags.has .path && !m.customFlags.has .tmpfile

/-- What a change through the path `p` comes to: none, or one of the object `p` names, in a mount
that may be written. -/
def ChangesNamed (p : VirtualPath) (h' : Host) : Prop :=
  h' = h ∨ ∃ l, v.Named h p l ∧ l.mount.access.isWritable = true ∧
    OnlyAt l.mount l.relative (inodeAt h l.mount l.relative) h h'

/-- Where the access mode of the mount of `l` forbids a write through `p`, so does that of the mount
of the object `p` names. -/
def RefusesNamed (p : VirtualPath) (l : Located) : Prop :=
  l.mount.access.isWritable = false → ∀ l', v.Named h p l' → l'.mount.access.isWritable = false

/-- The path whose final link a request acts through. -/
def Request.through : Request → Option VirtualPath
  | .openWith path _ => some path
  | .metadata path => some path
  | .facts path true => some path
  | .access path _ => some path
  | .readDirNames path => some path
  | .setPermissions path _ => some path
  | .setTimes path _ _ true => some path
  | .copy _ dst => some dst
  | _ => none

/-- What the request reads or changes is the object `canonicalize` names, and the access mode that
counts is that of its mount. -/
def Faithful : Request → Prop
  | .openWith path mode => mode.opensNamed = true → ∀ f h', v.openWith path mode h = (.ok f, h') →
      ∃ l, v.Named h path l ∧ f.dev = l.mount.dir.tree ∧
        (h'.tree f.dev).node l.relative = some f.node ∧
        (mode.isWrite = true → l.mount.access.isWritable = true) ∧
        OnlyAt l.mount l.relative (inodeAt h l.mount l.relative) h h'
  | .metadata path => ∀ m, (v.metadata path h).1 = .ok m → ∃ l n, v.Named h path l ∧
      (h.tree l.mount.dir.tree).node l.relative = some n ∧ m = nodeMetadata h l.mount.dir.tree n
  | .facts path true => ∀ f, (v.facts path true h).1 = .ok (some f) → ∃ l n, v.Named h path l ∧
      (h.tree l.mount.dir.tree).node l.relative = some n ∧
        f = .ofMetadata (nodeMetadata h l.mount.dir.tree n)
  | .access path modes => (v.access path modes h).1 = .ok true → ∃ l n, v.Named h path l ∧
      (h.tree l.mount.dir.tree).node l.relative = some n ∧
      h.permits n.kind ((h.tree l.mount.dir.tree).attr n.ino) modes = true ∧
      (modes.writable = true → l.mount.access.isWritable = true)
  | .readDirNames path => ∀ names, (v.readDirNames path h).1 = .ok names → ∃ l, v.Named h path l ∧
      (h.tree l.mount.dir.tree).isDir l.relative = true ∧
      names = ((h.tree l.mount.dir.tree).names l.relative).filter isUtf8
  | .setPermissions path mode => v.ChangesNamed h path (v.setPermissions path mode h).2
  | .setTimes path atime mtime true =>
      v.ChangesNamed h path (v.setTimes path atime mtime true h).2 ∧
      ∀ l, Walks v path (setTimesAt atime mtime true) h → v.locate path false h = .ok l →
        v.RefusesNamed h path l
  | .copy src dst => v.ChangesNamed h dst (v.copy src dst h).2 ∧
      ∀ l l', v.locateFollow src h = .ok l → v.locate dst false h = .ok l' →
        v.RefusesNamed h dst l'
  | _ => True

/-! ## When they are faithful -/

def GoodWay (p : VirtualPath) : Prop :=
  ∀ t ∈ v.targetsOf p true h, ¬ BadTarget t ∧ ∀ c ∈ t.components, Spelled c

/-- Whether the one step beneath the mount is not taken, is refused, or starts where the walk comes
past. -/
def StepsDirect (p : VirtualPath) : Prop :=
  ∀ d, v.locateExact p = .ok d → d.mount.shadowsNested = true ∨
    (∃ e, hostWalk h d.mount true d.relative = .error e ∧ e.kind = .permissionDenied) ∨
    v.ClearAbove h d.mount.at

def Beside (p : VirtualPath) : Prop :=
  ∀ l target, v.locate p false h = .ok l → l.link h = some target →
    (v.targetsOf p true h).length < maxSymlinkHops ∧
    (h.tree l.mount.dir.tree).skirts (v.Covers l.mount) true maxSymlinks [] l.relative = true ∧
    (l.mount.access.isWritable = true ∨ ∃ s, hostWalk h l.mount true l.relative = .ok s)

/-- Whether a request acts on what `canonicalize` names. -/
def Sure : Request → Prop
  | .setTimes path _ _ true => v.StepsDirect h path ∧ v.Beside h path
  | .copy _ dst => v.Beside h dst
  | r => ∀ path, r.through = some path → v.StepsDirect h path

variable {v h} {p : VirtualPath} {l : Located} {s : HostPath}

theorem named_iff : v.Named h p l ↔ v.locate p true h = .ok l := by
  unfold Named canonicalize locateFollow
  cases hl : v.locate p true h with
  | error e => simp [Except.map]
  | ok l' =>
    have hexact := exact_of_locate hl
    simp only [Except.map, Except.ok.injEq]
    constructor
    · rintro ⟨heq, hl⟩
      rw [← heq, hexact] at hl
      exact Except.ok.inj hl
    · rintro rfl
      exact ⟨rfl, hexact⟩

/-! ## Where the walk leads -/

theorem GoodWay.spelled (hg : v.GoodWay h p) : v.SpelledWay h p true := fun t ht => (hg t ht).2

theorem locate_of_direct {d : Located} (hd : v.locateExact p = .ok d)
    (hplain : d.mount.shadowsNested = false) (habove : v.ClearAbove h d.mount.at)
    (hg : v.GoodWay h p) (hwalk : hostWalk h d.mount true d.relative = .ok s) :
    ∃ q, v.locate p true h = .ok ⟨d.mount, s, q⟩ := by
  have hm := mem_of_locateExact hd
  have hp := components_of_locateExact hd
  have hcomp : ∀ c ∈ d.relative, IsComponent c := fun c hc => isComponent_of_exact hd hc
  have hfilter : d.relative.filter (· ≠ []) = d.relative :=
    List.filter_eq_self.2 fun c hc => by simpa using (hcomp c hc).ne_nil
  have hnone : ∀ r, ¬ v.Covers d.mount r := fun r => not_covers_of_flat hm hplain
  have hroot : v.Clear h d.mount.at := by
    refine clear_iff.2 ⟨habove, ?_⟩
    rw [linkAt, Vfs.locateExact, MountTable.resolve_at hm]
    exact link_of_relative_nil rfl
  have hscan : v.scan h true none .root p.components = v.scan h true none d.mount.at d.relative :=
    scan_from_mount hm habove hp
  have htargets : v.targetsOf p true h =
      v.targets h true maxSymlinkHops d.mount.at (d.relative.filter (· ≠ [])) := by
    rw [hfilter]
    exact targets_congr hscan
  rw [GoodWay, htargets] at hg
  rw [locate, follow_congr hscan, ← hfilter]
  exact follow_of_walk hm (fun c hc => Or.inr (hcomp c hc).queued)
    (fun c hc hbad => hbad.2 (hcomp c hc)) (hnone []) (by rw [List.append_nil]) hroot
    (Tree.skirts_of_forall hnone _ _ _) hwalk hg (Or.inl le_rfl)

theorem relative_of_locate (hs : v.SpelledWay h p true) (hl : v.locate p true h = .ok l)
    (hwalk : hostWalk h l.mount true l.relative = .ok s) : s = l.relative := by
  have hexact := exact_of_locate hl
  have hclear := (clear_of_spelledWay hs hl).2 rfl
  refine Tree.walk_clear (fun c hc => (isComponent_of_exact hexact hc).isPlain)
    (fun q hq _ _ => ?_) hwalk
  rw [List.nil_append]
  by_cases hqs : q = l.relative
  · subst hqs
    have := hclear l.virtualPath (List.prefix_refl _)
    rwa [linkAt_of_exact hexact] at this
  · exact hclear.above.link_above hexact hq hqs

theorem locate_of_final (hl : v.locate p false h = .ok l) (hg : v.GoodWay h p)
    (hb : v.Beside h p) (hwalk : hostWalk h l.mount true l.relative = .ok s) :
    ∃ q, v.locate p true h = .ok ⟨l.mount, s, q⟩ := by
  have hexact := exact_of_locate hl
  have hcomp := fun c hc => isComponent_of_exact hexact (c := c) hc
  have hpend : ∀ c ∈ p.components, Queued c := fun c hc => (p.valid c hc).queued
  rcases follow_final hg.spelled hpend clear_root hl with ⟨htrue, hclear⟩ |
    ⟨habove, ⟨target, hlink⟩, k, base, rest, hleft⟩
  · obtain rfl := relative_of_locate hg.spelled htrue hwalk
    exact ⟨l.virtualPath, htrue⟩
  · obtain ⟨hlen, hskirts, -⟩ := hb l target hl hlink
    obtain ⟨used, hused, htargets⟩ := hleft.targets
    change v.targetsOf p true h = _ at htargets
    have hlen : (v.targets h true k base rest).length < k := by
      rw [htargets, List.length_append] at hlen
      omega
    have hg' : ∀ t ∈ v.targets h true k base rest, ¬ BadTarget t ∧ ∀ c ∈ t.components, Spelled c :=
      fun t ht => hg t (htargets ▸ List.mem_append_right _ ht)
    obtain ⟨k, rfl⟩ : ∃ k', k = k' + 1 := ⟨k - 1, by omega⟩
    rw [targets_atLink k hleft.scan hexact hlink, List.append_nil] at hlen hg'
    obtain ⟨⟨hgood, hspell⟩, hg'⟩ := List.forall_mem_cons.1 hg'
    rw [List.length_cons] at hlen
    -- the link is the last component beneath its mount
    have hne : l.relative ≠ [] := fun hnil => by
      rw [link_of_relative_nil hnil] at hlink
      cases hlink
    obtain ⟨dir, c, hrel⟩ : ∃ dir c, l.relative = dir ++ [c] :=
      ⟨_, _, (List.dropLast_concat_getLast hne).symm⟩
    have hplain : ∀ d ∈ dir ++ [c], IsPlain d := fun d hd => (hcomp d (hrel ▸ hd)).isPlain
    have hdescend := Tree.descend_to_link (fun d hd => hplain d (List.mem_append_left _ hd))
      (hplain c (by simp)) (show (h.tree l.mount.dir.tree).linkAt (dir ++ [c]) = some target by
        rw [← hrel]
        exact hlink)
    unfold hostWalk at hwalk
    rw [hrel, maxSymlinks, Tree.walk, hdescend] at hwalk
    rw [hrel, maxSymlinks, Tree.skirts, hdescend, Bool.and_eq_true] at hskirts
    dsimp only at hwalk hskirts
    rw [List.append_nil] at hwalk hskirts
    split_ifs at hwalk with habs
    have hutf : target.isUtf8 = true := by
      by_contra hn
      exact hgood (Or.inl (by simpa using hn))
    have hcover := not_covers_of_exact hexact
    have hvirtual := components_of_locateExact hexact
    rw [hrel] at hcover hvirtual
    have hl' : l = ⟨l.mount, dir ++ [c], l.virtualPath⟩ := by
      rw [← hrel]
    rw [locate, hleft.follow, follow_atLink_succ hleft.scan, linkTarget_eq hexact hlink,
      if_pos hutf]
    dsimp only
    rw [List.append_nil]
    show ∃ q, v.follow h p true k (linkBase l target) (target.split.filter (· ≠ [])) =
      .ok ⟨l.mount, s, q⟩
    refine follow_of_walk (mem_of_locateExact hexact) ?_ ?_
      (not_covers_above hcover (List.prefix_append _ _)) ?_ (clear_linkBase habove) hskirts.2 hwalk
      hg' (Or.inr (Nat.lt_of_succ_lt_succ hlen))
    · intro d hd
      by_cases hnil : d = []
      · exact Or.inl hnil
      · exact Or.inr ⟨hnil, slash_not_mem_of_mem_split hd, hspell d (mem_components.2 ⟨hd, hnil⟩)⟩
    · intro d hd hbad
      exact hgood (Or.inr ⟨d, mem_components.2 ⟨hd, hbad.1.1⟩, hbad⟩)
    · rw [hl']
      exact linkBase_relative (by simpa using habs) hvirtual

theorem named_of_direct (hl : v.locateExact p = .ok l) (hplain : l.mount.shadowsNested = false)
    (hg : v.GoodWay h p) (hd : v.StepsDirect h p)
    (hwalk : hostWalk h l.mount true l.relative = .ok s) : ∃ q, v.Named h p ⟨l.mount, s, q⟩ := by
  simp only [named_iff]
  rcases hd l hl with hs | ⟨e, he, -⟩ | habove
  · rw [hplain] at hs
    cases hs
  · rw [hwalk] at he
    cases he
  · exact locate_of_direct hl hplain habove hg hwalk

theorem named_of_runsAt {α : Type} {op : Located → Op Host IoError α}
    (hl : RunsAt v h p true op l) (hg : v.GoodWay h p) (hd : v.StepsDirect h p)
    (hwalk : hostWalk h l.mount true l.relative = .ok s) : ∃ q, v.Named h p ⟨l.mount, s, q⟩ := by
  rcases hl with ⟨hl, hplain⟩ | ⟨-, hl⟩
  · exact named_of_direct hl hplain hg hd hwalk
  · obtain rfl := relative_of_locate hg.spelled hl hwalk
    exact ⟨l.virtualPath, named_iff.2 hl⟩

/-! ## What a call lands on -/

section Calls

variable {rel : List OsStr} {e : Edit} {t : Tree}

theorem walk_of_lookup (hl : (h.tree l.mount.dir.tree).lookup [] true l.relative = .ok s) :
    hostWalk h l.mount true l.relative = .ok s := (Tree.lookup_eq_ok.1 hl).2.2

theorem inodeAt_of_node {m : Mount} {n : Node} (hn : (h.tree m.dir.tree).node s = some n) :
    inodeAt h m s = n.ino := by
  rw [inodeAt, hn]

theorem inodeAt_of_none {m : Mount} (hn : (h.tree m.dir.tree).node s = none) :
    inodeAt h m s = (h.tree m.dir.tree).next := by
  rw [inodeAt, hn]

theorem onlyAt_set {m : Mount} {i : Nat} {a : Attr}
    (ht : (h.tree m.dir.tree).apply (.set i a) = .ok t) :
    OnlyAt m s i h (h.set m.dir.tree t) := by
  obtain ⟨hnode, hattr⟩ := Tree.apply_set ht
  refine ⟨fun j hj => tree_set_of_ne hj, fun q _ => ?_, fun j hj => ?_⟩
  · rw [tree_set_self, hnode]
  · rw [tree_set_self, hattr, if_neg hj]

theorem onlyAt_add {m : Mount} {dir : HostPath} {name : OsStr} {kind : Kind} {a : Attr}
    (ht : (h.tree m.dir.tree).apply (.add dir name kind a) = .ok t) :
    OnlyAt m (dir ++ [name]) (h.tree m.dir.tree).next h (h.set m.dir.tree t) := by
  obtain ⟨-, hnode, hattr⟩ := Tree.apply_add ht
  refine ⟨fun j hj => tree_set_of_ne hj, fun q hq => ?_, fun j hj => ?_⟩
  · rw [tree_set_self, hnode, if_neg hq]
  · rw [tree_set_self, hattr, if_neg hj]

omit [Unicode] in
theorem OpenMode.has_toCapStd {m : OpenMode} {flag : OFlags}
    (hflag : flag = .path ∨ flag = .tmpfile) :
    m.toCapStd.customFlags.has flag = m.customFlags.has flag := by
  have hzero : (m.customFlags &&& flag) ||| 0 = m.customFlags &&& flag := BitVec.or_zero
  have hnonblock : OFlags.nonblock &&& flag = 0 := by
    rcases hflag with rfl | rfl <;> decide
  unfold OpenMode.toCapStd
  dsimp only
  split_ifs
  · rw [OFlags.has, OFlags.has, BitVec.and_or_distrib_right, hnonblock, hzero]
  · rfl

theorem openWith_lands {o : OpenOptions} {f : File} {h' : Host}
    (hl : v.locateExact l.virtualPath = .ok l) (hpath : o.customFlags.has .path = false)
    (htmp : o.customFlags.has .tmpfile = false)
    (hf : l.mount.dir.openWith l.relative o h = (.ok f, h')) :
    ∃ s, hostWalk h l.mount true l.relative = .ok s ∧ f.dev = l.mount.dir.tree ∧
      (h'.tree f.dev).node s = some f.node ∧ f.node.ino = inodeAt h l.mount s ∧
      OnlyAt l.mount s (inodeAt h l.mount s) h h' := by
  unfold CapDir.openWith at hf
  cases ho : o.oflags with
  | error e =>
    rw [ho] at hf
    cases hf
  | ok flags =>
    rw [ho, check_ok_bind] at hf
    obtain ⟨e, hask, hcommit⟩ := CapDir.call_eq_ok hf
    obtain ⟨⟨n, e'⟩, hn, heq⟩ := CapDir.ask_map_eq_ok.1 hask
    obtain ⟨root, hroot, hopen⟩ := CapDir.ask_eq_ok.1 hn
    obtain rfl := Option.some.inj (hroot.symm.trans (pathOf_root hl))
    obtain ⟨rfl, rfl⟩ := Prod.mk.inj heq
    rw [← OpenOptions.has_oflags ho (Or.inr rfl)] at htmp
    rw [← OpenOptions.has_oflags ho (Or.inl rfl)] at hpath
    obtain ⟨s, -, hs, ⟨hnode, he⟩ | ⟨hnone, rfl, dir, name, a, rfl, rfl⟩⟩ :=
      Tree.openat_named htmp hpath hopen
    · refine ⟨s, walk_of_lookup hs, rfl, ?_⟩
      rw [inodeAt_of_node hnode]
      obtain ⟨-, rfl⟩ | ⟨e₁, t, rfl, ht, rfl⟩ := hcommit
      · exact ⟨hnode, rfl, fun _ _ => rfl, fun _ _ => rfl, fun _ _ => rfl⟩
      · obtain ⟨a, rfl⟩ : ∃ a, e₁ = .set n.ino a := by simpa using he
        refine ⟨?_, rfl, onlyAt_set ht⟩
        rw [tree_set_self, (Tree.apply_set ht).1]
        exact hnode
    · refine ⟨dir ++ [name], walk_of_lookup hs, rfl, ?_⟩
      rw [inodeAt_of_none hnone]
      obtain ⟨hnil, -⟩ | ⟨e₁, t, he₁, ht, rfl⟩ := hcommit
      · cases hnil
      · obtain rfl := Option.some.inj he₁
        refine ⟨?_, rfl, onlyAt_add ht⟩
        rw [tree_set_self, (Tree.apply_add ht).2.1, if_pos rfl]

theorem copyTo_lands {mode : Nat} {f : File} {h' : Host}
    (hl : v.locateExact l.virtualPath = .ok l)
    (hf : l.mount.dir.openWith l.relative (CapDir.copyTo mode) h = (.ok f, h')) :
    ∃ s, hostWalk h l.mount true l.relative = .ok s ∧ f.dev = l.mount.dir.tree ∧
      f.node.ino = inodeAt h l.mount s ∧ OnlyAt l.mount s (inodeAt h l.mount s) h h' := by
  have hpath : (CapDir.copyTo mode).customFlags.has .path = false := by
    show OFlags.has 0 .path = false
    decide
  have htmp : (CapDir.copyTo mode).customFlags.has .tmpfile = false := by
    show OFlags.has 0 .tmpfile = false
    decide
  obtain ⟨s, hs, hdev, -, hino, honly⟩ := openWith_lands hl hpath htmp hf
  exact ⟨s, hs, hdev, hino, honly⟩

theorem copy_lands {src : CapDir} {rel : List OsStr} (hl : v.locateExact l.virtualPath = .ok l) :
    (src.copy rel l.mount.dir l.relative h).2 = h ∨
      ∃ s, hostWalk h l.mount true l.relative = .ok s ∧
        OnlyAt l.mount s (inodeAt h l.mount s) h (src.copy rel l.mount.dir l.relative h).2 := by
  cases hwalk : hostWalk h l.mount true l.relative with
  | error e =>
    -- nothing is opened, so nothing is written
    have hno : ∀ mode f h', l.mount.dir.openWith l.relative (CapDir.copyTo mode) h ≠
        (.ok f, h') := by
      intro mode f h' hf
      obtain ⟨s, hs, -⟩ := copyTo_lands hl hf
      rw [hwalk] at hs
      cases hs
    have : Std.Refl fun h₁ h₂ : Host => h₂ = h₁ := ⟨fun _ => rfl⟩
    have : IsTrans Host fun h₁ h₂ : Host => h₂ = h₁ := ⟨fun _ _ _ h h' => h'.trans h⟩
    refine Or.inl (CapDir.keepsAt_copy (R := fun h₁ h₂ : Host => h₂ = h₁) (fun mode => ?_)
      fun mode f h' hf => absurd hf (hno mode f h'))
    cases hr : l.mount.dir.openWith l.relative (CapDir.copyTo mode) h with
    | mk r h' =>
      cases r with
      | ok f => exact absurd hr (hno mode f h')
      | error e => exact CapDir.openWith_error (by rw [hr])
  | ok s =>
    refine Or.inr ⟨s, rfl, CapDir.keepsAt_copy (R := OnlyAt l.mount s (inodeAt h l.mount s))
      (fun mode => ?_) fun mode f h' hf g h'' => ?_⟩
    · cases hr : l.mount.dir.openWith l.relative (CapDir.copyTo mode) h with
      | mk r h' =>
        cases r with
        | ok f =>
          obtain ⟨s', hs, -, -, honly⟩ := copyTo_lands hl hr
          obtain rfl := Except.ok.inj (hwalk.symm.trans hs)
          rw [KeepsAt, hr]
          exact honly
        | error e =>
          rw [KeepsAt, CapDir.openWith_error (by rw [hr])]
          exact refl_of _ h
    · obtain ⟨s', hs, hdev, hino, -⟩ := copyTo_lands hl hf
      obtain rfl := Except.ok.inj (hwalk.symm.trans hs)
      refine keepsAt_change fun _ h₃ hset => ?_
      obtain ⟨-, rfl⟩ := Prod.mk.inj (Except.ok.inj hset)
      rw [hdev, hino]
      exact onlyAt_set rfl

theorem metadata_lands {m : Metadata} (hl : v.locateExact l.virtualPath = .ok l)
    (hm : l.mount.dir.metadata l.relative h = .ok m) :
    ∃ s n, hostWalk h l.mount true l.relative = .ok s ∧
      (h.tree l.mount.dir.tree).lookup [] true l.relative = .ok s ∧
      (h.tree l.mount.dir.tree).node s = some n ∧ m = nodeMetadata h l.mount.dir.tree n := by
  obtain ⟨root, s, n, hroot, hs, hn, rfl⟩ := CapDir.statWith_eq_ok.1 hm
  obtain rfl := Option.some.inj (hroot.symm.trans (pathOf_root hl))
  exact ⟨s, n, walk_of_lookup hs, hs, hn, rfl⟩

theorem root_lands (hl : v.locateExact l.virtualPath = .ok l) (hnil : l.relative = []) :
    hostWalk h l.mount true l.relative = .ok [] ∧
      (h.tree l.mount.dir.tree).node [] = some ⟨0, .dir⟩ ∧
      l.mount.dir.dirMetadata h = nodeMetadata h l.mount.dir.tree ⟨0, .dir⟩ := by
  refine ⟨by rw [hnil]; rfl, (h.tree l.mount.dir.tree).root_eq, ?_⟩
  rw [CapDir.dirMetadata, v.roots l.mount (mem_of_locateExact hl)]
  rfl

theorem metadataAt_lands {m : Metadata} {h' : Host} (hl : v.locateExact l.virtualPath = .ok l)
    (hm : metadataAt l h = (.ok m, h')) : ∃ s n, hostWalk h l.mount true l.relative = .ok s ∧
      (h.tree l.mount.dir.tree).node s = some n ∧ m = nodeMetadata h l.mount.dir.tree n := by
  unfold metadataAt at hm
  split_ifs at hm with hnil
  · obtain ⟨hwalk, hroot, hmeta⟩ := root_lands (h := h) hl hnil
    obtain ⟨hm, -⟩ := Prod.mk.inj hm
    exact ⟨[], _, hwalk, hroot, (Except.ok.inj hm).symm.trans hmeta⟩
  · cases hstat : l.mount.dir.metadata l.relative h with
    | error e =>
      rw [read_bind_error hstat] at hm
      cases hm
    | ok m₁ =>
      rw [read_bind_ok hstat] at hm
      obtain ⟨s, n, hwalk, hlook, hn, rfl⟩ := metadata_lands hl hstat
      split_ifs at hm with hdir
      · cases hopen : l.mount.dir.openDir l.relative h with
        | error e =>
          rw [read_bind_error hopen] at hm
          cases hm
        | ok d =>
          rw [read_bind_ok hopen] at hm
          obtain ⟨hm, -⟩ := Prod.mk.inj hm
          obtain ⟨root, s', i, hroot, hs', hn', rfl⟩ := CapDir.openDir_eq_ok.1 hopen
          obtain rfl := Option.some.inj (hroot.symm.trans (pathOf_root hl))
          obtain rfl := Except.ok.inj (hlook.symm.trans hs')
          exact ⟨s, _, hwalk, hn', (Except.ok.inj hm).symm⟩
      · cases hopen : l.mount.dir.openWith l.relative
            (OpenMode.ofRead.withNonblock true).toCapStd h with
        | mk r h₁ =>
          cases r with
          | error e =>
            rw [bind_error hopen] at hm
            cases hm
          | ok f =>
            rw [bind_ok hopen] at hm
            obtain ⟨hm, -⟩ := Prod.mk.inj hm
            have hsame : h₁ = h := by
              have hread : (l.mount.dir.openWith l.relative
                  (OpenMode.ofRead.withNonblock true).toCapStd h).2 = h :=
                CapDir.openWith_unchanged fun flags hflags => by
                  obtain rfl : _ = flags := Except.ok.inj hflags
                  decide
              rwa [hopen] at hread
            obtain ⟨s', hwalk', hdev, hnode, -, -⟩ := openWith_lands hl (by decide) (by decide) hopen
            rw [hsame, hdev] at hnode
            refine ⟨s', f.node, hwalk', hnode, ?_⟩
            rw [← Except.ok.inj hm, hsame, File.metadata, hdev]
            rfl

end Calls

/-! ## What is answered, and where -/

section Answers

variable {α : Type} {op : Located → Op Host IoError α} {followFinal : Bool} {a : α} {h' : Host}

theorem at_eq_ok (hop : ∀ l e, (op l h).1 = .error e → (op l h).2 = h)
    (hat : v.at p followFinal op h = (.ok a, h')) :
    ∃ l, RunsAt v h p followFinal op l ∧ op l h = (.ok a, h') := by
  unfold Vfs.at at hat
  cases hd : v.locateExact p with
  | error e =>
    rw [hd] at hat
    cases hat
  | ok d =>
    have hcareful : Walks v p op h → v.careful p followFinal op h = (.ok a, h') →
        ∃ l, RunsAt v h p followFinal op l ∧ op l h = (.ok a, h') := by
      intro hw hc
      unfold careful at hc
      cases hl : v.locate p followFinal h with
      | error e =>
        rw [read_bind_error hl] at hc
        cases hc
      | ok l =>
        rw [read_bind_ok hl] at hc
        exact ⟨l, Or.inr ⟨hw, hl⟩, hc⟩
    rw [hd, check_ok_bind] at hat
    split_ifs at hat with hs
    · exact hcareful ⟨d, hd, Or.inl hs⟩ hat
    · have hs : d.mount.shadowsNested = false := by simpa using hs
      cases hr : op d h with
      | mk r h₁ =>
        rw [bind_ok (show (op d).attempt h = (.ok r, h₁) by rw [attempt_apply, hr])] at hat
        cases r with
        | ok b =>
          obtain ⟨hb, rfl⟩ := Prod.mk.inj hat
          obtain rfl := Except.ok.inj hb
          exact ⟨d, Or.inl ⟨hd, hs⟩, hr⟩
        | error e =>
          obtain rfl : h₁ = h := by
            have := hop d e (by rw [hr])
            rwa [hr] at this
          dsimp only at hat
          split_ifs at hat with hk
          · exact hcareful ⟨d, hd, Or.inr ⟨e, by rw [hr], hk⟩⟩ hat
          · cases hat

theorem at_fst_eq_ok (hop : ∀ l, Reads (op l)) (hat : (v.at p followFinal op h).1 = .ok a) :
    ∃ l, RunsAt v h p followFinal op l ∧ op l h = (.ok a, h) :=
  at_eq_ok (fun l _ _ => hop l h) (Prod.ext hat (reads_at hop h))

omit [Unicode] in
theorem orNone_eq_some {x : Op Host IoError α} (hx : (orNone x h).1 = .ok (some a)) :
    (x h).1 = .ok a := by
  rw [orNone, bind_ok (attempt_apply x h)] at hx
  exact toOption_eq_some.1 (Except.ok.inj hx)

end Answers

/-! ## The operations -/

/-- Nothing is changed, or what `p` names in `h` is. -/
def Towards (v : Vfs) (h : Host) (p : VirtualPath) (h₁ h₂ : Host) : Prop :=
  h₂ = h₁ ∨ v.ChangesNamed h p h₂

instance : Std.Refl (Towards v h p) := ⟨fun _ => Or.inl rfl⟩

theorem changesNamed_of_set {n : Node} {a : Attr} {t : Tree} {q : VirtualPath}
    (hq : v.Named h p ⟨l.mount, s, q⟩) (hw : l.mount.access.isWritable = true)
    (hn : (h.tree l.mount.dir.tree).node s = some n)
    (ht : (h.tree l.mount.dir.tree).apply (.set n.ino a) = .ok t) :
    v.ChangesNamed h p (h.set l.mount.dir.tree t) := by
  refine Or.inr ⟨_, hq, hw, ?_⟩
  rw [inodeAt_of_node hn]
  exact onlyAt_set ht

section Operations

variable (hg : v.GoodWay h p) (hd : v.StepsDirect h p)

include hg hd

theorem faithful_openWith {mode : OpenMode} : v.Faithful h (.openWith p mode) := by
  intro hnamed f h' hopen
  unfold OpenMode.opensNamed at hnamed
  rw [Bool.and_eq_true, Bool.not_eq_true', Bool.not_eq_true'] at hnamed
  unfold Vfs.openWith at hopen
  cases hr : v.refusesLink p mode h with
  | mk r h₁ =>
    obtain rfl : h₁ = h := by
      have hread : (v.refusesLink p mode h).2 = h := reads_refusesLink h
      rwa [hr] at hread
    cases r with
    | error e =>
      rw [bind_error hr] at hopen
      cases hopen
    | ok refused =>
      rw [bind_ok hr] at hopen
      split_ifs at hopen
      · cases hopen
      · obtain ⟨l, hl, hrun⟩ := at_eq_ok (fun l e he => openAt_error he) hopen
        unfold openAt at hrun
        split_ifs at hrun with hro
        · cases hrun
        · obtain ⟨s, hwalk, hdev, hnode, -, honly⟩ :=
            openWith_lands hl.exact (by rw [OpenMode.has_toCapStd (Or.inl rfl), hnamed.1])
              (by rw [OpenMode.has_toCapStd (Or.inr rfl), hnamed.2]) hrun
          obtain ⟨q, hq⟩ := named_of_runsAt hl hg hd hwalk
          refine ⟨_, hq, hdev, hnode, fun hw => ?_, honly⟩
          simpa [hw] using hro

theorem faithful_metadata : v.Faithful h (.metadata p) := by
  intro m hm
  obtain ⟨l, hl, hrun⟩ := at_fst_eq_ok (fun _ => reads_metadataAt) hm
  obtain ⟨s, n, hwalk, hn, rfl⟩ := metadataAt_lands hl.exact hrun
  obtain ⟨q, hq⟩ := named_of_runsAt hl hg hd hwalk
  exact ⟨_, n, hq, hn, rfl⟩

theorem faithful_facts : v.Faithful h (.facts p true) := by
  intro f hf
  obtain ⟨l, hl, hrun⟩ := at_fst_eq_ok (fun _ => reads_factsAt) (orNone_eq_some hf)
  obtain ⟨hf, -⟩ := Prod.mk.inj hrun
  dsimp only at hf
  by_cases hnil : l.relative = []
  · rw [if_pos hnil] at hf
    obtain ⟨hwalk, hroot, hmeta⟩ := root_lands (h := h) hl.exact hnil
    obtain ⟨q, hq⟩ := named_of_runsAt hl hg hd hwalk
    refine ⟨_, _, hq, hroot, ?_⟩
    rw [← Except.ok.inj hf, hmeta]
  · rw [if_neg hnil, if_pos rfl] at hf
    cases hm : l.mount.dir.metadata l.relative h with
    | error e =>
      rw [hm] at hf
      cases hf
    | ok m =>
      rw [hm] at hf
      obtain ⟨s, n, hwalk, -, hn, rfl⟩ := metadata_lands hl.exact hm
      obtain ⟨q, hq⟩ := named_of_runsAt hl hg hd hwalk
      exact ⟨_, n, hq, hn, (Except.ok.inj hf).symm⟩

theorem faithful_access {modes : AccessModes} : v.Faithful h (.access p modes) := by
  intro ha
  unfold Vfs.access at ha
  cases hr : orNone (v.at p true (accessAt modes)) h with
  | mk r h₁ =>
    cases r with
    | error e =>
      rw [bind_error hr] at ha
      cases ha
    | ok x =>
      rw [bind_ok hr] at ha
      cases x with
      | none => cases ha
      | some u =>
        obtain ⟨l, hl, hrun⟩ := at_fst_eq_ok (fun _ => reads_accessAt)
          (orNone_eq_some (congrArg Prod.fst hr))
        unfold accessAt at hrun
        split_ifs at hrun with hro
        · cases hrun
        · obtain ⟨ha, -⟩ := Prod.mk.inj hrun
          obtain ⟨root, hroot, ha⟩ := CapDir.ask_eq_ok.1 ha
          obtain rfl := Option.some.inj (hroot.symm.trans (pathOf_root hl.exact))
          split at ha
          · cases ha
          · rename_i s n hstat
            split_ifs at ha with hpermits
            obtain ⟨hs, hn⟩ := Tree.stat_eq_ok.1 hstat
            obtain ⟨q, hq⟩ := named_of_runsAt hl hg hd (walk_of_lookup hs)
            refine ⟨_, n, hq, hn, hpermits, fun hw => ?_⟩
            simpa [hw] using hro

theorem faithful_readDirNames : v.Faithful h (.readDirNames p) := by
  intro names hnames
  obtain ⟨l, hl, hrun⟩ := at_fst_eq_ok (fun _ => reads_readDirNamesAt) hnames
  unfold readDirNamesAt at hrun
  cases hdir : dirAt l h with
  | error e =>
    rw [read_bind_error hdir] at hrun
    cases hrun
  | ok d =>
    rw [read_bind_ok hdir] at hrun
    obtain ⟨hrun, -⟩ := Prod.mk.inj hrun
    obtain ⟨s, hwalk, htree, hpath⟩ : ∃ s, hostWalk h l.mount true l.relative = .ok s ∧
        d.tree = l.mount.dir.tree ∧ (h.tree d.tree).pathOf d.ino = some s := by
      unfold dirAt at hdir
      split_ifs at hdir with hnil
      · obtain rfl := Except.ok.inj hdir
        exact ⟨[], (root_lands hl.exact hnil).1, rfl, pathOf_root hl.exact⟩
      · obtain ⟨root, s, i, hroot, hs, hn, rfl⟩ := CapDir.openDir_eq_ok.1 hdir
        obtain rfl := Option.some.inj (hroot.symm.trans (pathOf_root hl.exact))
        exact ⟨s, walk_of_lookup hs, rfl, Tree.pathOf_eq_some.2 hn⟩
    obtain ⟨q, hq⟩ := named_of_runsAt hl hg hd hwalk
    refine ⟨_, hq, Tree.isDir_iff.2 ⟨d.ino, ?_⟩, ?_⟩
    · rw [← htree]
      exact Tree.pathOf_eq_some.1 hpath
    · unfold CapDir.entries CapDir.ask at hrun
      dsimp only at hrun
      rw [hpath, htree] at hrun
      exact (Except.ok.inj hrun).symm

theorem faithful_setPermissions {mode : Nat} : v.Faithful h (.setPermissions p mode) := by
  have hkeep : KeepsAt (Towards v h p) (v.setPermissions p mode) h := by
    refine keepsAt_at_edit (fun l _ t root => t.chmod root l.relative mode)
      fun l hl hw e t he ht => Or.inr ?_
    obtain ⟨s, n, a, hs, hn, rfl⟩ := Tree.chmod_eq_ok he
    obtain ⟨q, hq⟩ := named_of_runsAt hl hg hd (walk_of_lookup hs)
    exact changesNamed_of_set hq hw hn ht
  exact hkeep.elim Or.inl id

end Operations

/-! ### At a final link -/

section AtLink

variable (hg : v.GoodWay h p) (hb : v.Beside h p)

include hg hb

theorem refusesNamed_of_locate (hl : v.locate p false h = .ok l) : v.RefusesNamed h p l := by
  intro hro l' hl'
  rw [named_iff] at hl'
  have hpend : ∀ c ∈ p.components, Queued c := fun c hc => (p.valid c hc).queued
  rcases follow_final hg.spelled hpend clear_root hl with ⟨htrue, -⟩ | ⟨-, ⟨target, hlink⟩, -⟩
  · obtain rfl := Except.ok.inj (hl'.symm.trans htrue)
    exact hro
  · obtain ⟨-, -, hw | ⟨s, hwalk⟩⟩ := hb l target hl hlink
    · rw [hro] at hw
      cases hw
    · obtain ⟨q, hq⟩ := locate_of_final hl hg hb hwalk
      obtain rfl := Except.ok.inj (hl'.symm.trans hq)
      exact hro

theorem faithful_setTimes (hd : v.StepsDirect h p) {atime mtime : Int} :
    v.Faithful h (.setTimes p atime mtime true) := by
  refine ⟨?_, fun l _ hl => refusesNamed_of_locate hg hb hl⟩
  have hkeep : KeepsAt (Towards v h p) (v.setTimes p atime mtime true) h := by
    refine keepsAt_at_edit (fun l _ t root => t.utimes root true l.relative atime mtime)
      fun l hl hw e t he ht => Or.inr ?_
    obtain ⟨s, n, a, hs, hn, rfl⟩ := Tree.utimes_eq_ok he
    have hwalk := walk_of_lookup hs
    obtain ⟨q, hq⟩ : ∃ q, v.Named h p ⟨l.mount, s, q⟩ := by
      rcases hl with hl | ⟨-, hl⟩
      · exact named_of_direct hl.1 hl.2 hg hd hwalk
      · simp only [named_iff]
        exact locate_of_final hl hg hb hwalk
    exact changesNamed_of_set hq hw hn ht
  exact hkeep.elim Or.inl id

theorem faithful_copy {src : VirtualPath} : v.Faithful h (.copy src p) := by
  refine ⟨?_, fun _ l _ hl => refusesNamed_of_locate hg hb hl⟩
  have hkeep : KeepsAt (Towards v h p) (v.copy src p) h := by
    refine keepsAt_read_bind fun l₀ _ => keepsAt_read_bind fun l hl =>
      keepsAt_check_bind fun _ hw => ?_
    rcases copy_lands (exact_of_locate hl) with hsame | ⟨s, hwalk, honly⟩
    · exact Or.inl hsame
    · obtain ⟨q, hq⟩ := locate_of_final hl hg hb hwalk
      exact Or.inr (Or.inr ⟨⟨l.mount, s, q⟩, named_iff.2 hq,
        isWritable_of_require (l := l) hw, honly⟩)
  exact hkeep.elim Or.inl id

end AtLink

/-- **Through a final link.** What a request that acts through a final link reads or changes is what
`canonicalize` names, in the mount whose access mode decides. -/
theorem faithful_of_sure {r : Request} (hg : ∀ p, r.through = some p → v.GoodWay h p)
    (hr : v.Sure h r) : v.Faithful h r := by
  cases r with
  | openWith path mode => exact faithful_openWith (hg path rfl) (hr path rfl)
  | metadata path => exact faithful_metadata (hg path rfl) (hr path rfl)
  | facts path follow =>
    cases follow with
    | true => exact faithful_facts (hg path rfl) (hr path rfl)
    | false => trivial
  | access path modes => exact faithful_access (hg path rfl) (hr path rfl)
  | readDirNames path => exact faithful_readDirNames (hg path rfl) (hr path rfl)
  | setPermissions path mode => exact faithful_setPermissions (hg path rfl) (hr path rfl)
  | setTimes path atime mtime follow =>
    cases follow with
    | true => exact faithful_setTimes (hg path rfl) hr.2 hr.1
    | false => trivial
  | copy src dst => exact faithful_copy (hg dst rfl) hr
  | symlinkMetadata path => trivial
  | canonicalize path => trivial
  | readLink path => trivial
  | createDir path => trivial
  | createDirAll path => trivial
  | createDirWithMode path mode recursive => trivial
  | removeFile path => trivial
  | removeDir path => trivial
  | removeDirAll path => trivial
  | rename src dst => trivial
  | hardLink original link => trivial
  | symlink path target => trivial
  | openDir path => trivial
  | dir index request => trivial

end Seahaven.Vfs

namespace Seahaven.Vfs

open Host OsStr Op

section Fixture

attribute [local instance] composed

/-- `vendorHost`, with a key where the nested mount is, a link to what it covers and a link to
`notes`. -/
def outHost : Host := .ofTrees [.ofEntries [([os "lib"], .dir), ([os "lib", os "vendor"], .dir),
    ([os "lib", os "vendor", os "key"], .file), ([os "notes"], .file),
    ([os "out"], .link (os "lib/vendor/key")), ([os "near"], .link (os "notes"))],
  .ofEntries [([os "key"], .file)]]

/-- `/work/near` is changed where it leads. -/
theorem near_faithful : vendorVfs.ChangesNamed outHost ⟨[os "work", os "near"], by decide⟩
    (vendorVfs.setTimes ⟨[os "work", os "near"], by decide⟩ 1 2 true outHost).2 := by
  have hl : vendorVfs.locate ⟨[os "work", os "near"], by decide⟩ false outHost =
      .ok ⟨workMount, [os "near"], ⟨[os "work", os "near"], by decide⟩⟩ := by decide
  refine (faithful_of_sure (r := .setTimes ⟨[os "work", os "near"], by decide⟩ 1 2 true)
    (fun p hp => ?_) ⟨fun d hd => Or.inl ?_, fun l target hl' _ => ?_⟩).1
  · obtain rfl := Option.some.inj hp
    unfold GoodWay BadTarget Ungrammatical
    decide
  · obtain rfl : (⟨workMount, [os "near"], ⟨[os "work", os "near"], by decide⟩⟩ : Located) = d :=
      Except.ok.inj (Eq.trans (by decide) hd)
    rfl
  · obtain rfl := Except.ok.inj (hl.symm.trans hl')
    exact ⟨by decide, by decide, Or.inl rfl⟩

/-- **Into what is shadowed.** `canonicalize` names the key of the nested mount, which is read-only;
`set_times` changes the key it covers. -/
theorem out_not_faithful : vendorVfs.GoodWay outHost ⟨[os "work", os "out"], by decide⟩ ∧
      vendorVfs.canonicalize ⟨[os "work", os "out"], by decide⟩ outHost =
        .ok ⟨[os "work", os "lib", os "vendor", os "key"], by decide⟩ ∧
      ¬ vendorVfs.Faithful outHost (.setTimes ⟨[os "work", os "out"], by decide⟩ 1 2 true) := by
  have hchanged : (((vendorVfs.setTimes ⟨[os "work", os "out"], by decide⟩ 1 2 true
      outHost).2.tree 0).attr 3).mtime = 2 := by decide
  have hbefore : ((outHost.tree 0).attr 3).mtime = 0 := by decide
  refine ⟨by unfold GoodWay BadTarget Ungrammatical; decide, by decide, ?_⟩
  rintro ⟨hsame | ⟨l, hl, -, honly⟩, -⟩
  · rw [hsame, hbefore] at hchanged
    cases hchanged
  · rw [named_iff] at hl
    obtain rfl : (⟨vendorMount, [os "key"],
        ⟨[os "work", os "lib", os "vendor", os "key"], by decide⟩⟩ : Located) = l :=
      Except.ok.inj (Eq.trans (by decide) hl)
    rw [honly.tree 0 (by decide), hbefore] at hchanged
    cases hchanged

end Fixture

end Seahaven.Vfs
