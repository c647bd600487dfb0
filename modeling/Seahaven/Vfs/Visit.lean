import Seahaven.Vfs.Chain
import Seahaven.Vfs.Walk

/-!
# What a walk visits

A walk opens and stats what it comes to by name, from the handle of the directory it is in. What it
yields is what the entry's path names, as long as no name it takes is one a nested mount covers.

1. `Seen`: an entry is of the object its path names.
2. `Visiting`: the directories a walk has open are those their paths open. Every round keeps it.
3. `seen_run`: so every entry of a walk is seen, whatever calls are made of it.
-/

namespace Seahaven.Vfs

open Host OsStr Op

variable [Unicode]

section Statements

variable (v : Vfs) (h : Host)

/-- What an entry tells of is what its path names, as it stands: its last link is not followed, or
was, by its path. Nothing a nested mount covers is told of. -/
def Seen (dent : DirEntry) : Prop :=
  ∃ l n, v.locate dent.path false h = .ok l ∧ ¬ v.Covers l.mount l.relative ∧
    (h.tree l.mount.dir.tree).node l.relative = some n ∧
    if dent.followed then
      (∃ target, n.kind = .link target) ∧ (v.metadata dent.path h).1 = .ok dent.metadata
    else dent.metadata = nodeMetadata h l.mount.dir.tree n

/-- A level of a walk is the directory its path opens. -/
structure Opened (dir : Dir) (path : VirtualPath) : Prop where
  opens : v.openDir path h = .ok dir
  spelled : v.SpelledWay h path true

/-- A walk whose levels are what their paths open, and whose withheld entries are seen. -/
structure Visiting (it : IntoIter) : Prop where
  vfs : it.vfs = some v
  started : it.start = none
  frames : ∀ f ∈ it.stack, v.Opened h f.dir f.path
  withheld : ∀ d ∈ it.deferredDirs, v.Seen h d

/-- Whether a name taken from a directory is the path's: the grammar keeps it, no nested mount covers
it, and the links followed on are spelled. -/
structure SureName (opts : WalkOptions) (p : VirtualPath) (c : OsStr) : Prop where
  spelled : Spelled c
  bare : ∀ l, v.locate p true h = .ok l → ¬ v.Covers l.mount (l.relative ++ [c])
  way : opts.followLinks = true → ∀ q, p.resolve c = .ok q → v.SpelledWay h q true

end Statements

/-- The name the next round takes, with the path of its directory. -/
def IntoIter.takes (it : IntoIter) : Option (VirtualPath × OsStr) :=
  match getDeferredDir { it with depth := it.stack.length } with
  | (some _, _) => none
  | (none, it) =>
    if it.opts.maxDepth < it.depth then none
    else
      match it.stack with
      | [] => none
      | frame :: _ => frame.entries.head?.map fun name => (frame.path, name)

section Statements

variable (v : Vfs) (h : Host)

def SureRounds : Nat → IntoIter → Prop
  | 0, _ => True
  | fuel + 1, it => it.stack ≠ [] →
    (∀ p c, it.takes = some (p, c) → v.SureName h it.opts p c) ∧
      ((it.turn h v).1 = none → SureRounds fuel (it.turn h v).2)

/-- Whether a call of `next` takes such names only, and starts at a root whose links are spelled. -/
def SureNext (fuel : Nat) (it : IntoIter) : Prop :=
  match it.start with
  | none => v.SureRounds h fuel it
  | some (root, display) => v.SpelledWay h root true ∧
    ∀ dent, IntoIter.rootEntry h v root display = .ok dent →
      (IntoIter.handleEntry h v dent { it with start := none }).1 = none →
        v.SureRounds h fuel (IntoIter.handleEntry h v dent { it with start := none }).2

end Statements

/-- What a program does with a walk. -/
inductive WalkCall
  | next (fuel : Nat)
  | skipCurrentDir

/-- A walk and what it has yielded, after a call. A call that has not ended has done nothing. -/
def WalkCall.perform (h : Host) (s : IntoIter × List Item) : WalkCall → IntoIter × List Item
  | next fuel =>
    match s.1.next h fuel with
    | some (some item, it) => (it, s.2 ++ [item])
    | some (none, it) => (it, s.2)
    | none => s
  | skipCurrentDir => (s.1.skipCurrentDir, s.2)

def WalkCall.Sure (v : Vfs) (h : Host) (s : IntoIter × List Item) : WalkCall → Prop
  | next fuel => s.1.deferred = none → s.1.done = false → v.SureNext h fuel s.1
  | skipCurrentDir => True

variable {v : Vfs} {h : Host} {p q : VirtualPath} {l : Located} {dent : DirEntry} {dir : Dir}
  {c : OsStr}

/-! ## A name in a directory -/

theorem stat_of_name {m : Metadata} (hat : HandleAt v h p dir l) (hc : IsComponent c)
    (hstat : dir.symlinkMetadata c h = .ok m) :
    ∃ n, (h.tree l.mount.dir.tree).node (l.relative ++ [c]) = some n ∧
      m = nodeMetadata h l.mount.dir.tree n := by
  obtain ⟨c', hname, hm⟩ := except_bind_eq_ok.1 hstat
  obtain ⟨rfl, -⟩ := component_eq_ok.1 hname
  unfold Vfs.symlinkMetadataAt at hm
  split_ifs at hm with hnul
  obtain ⟨root, s, n, hroot, hlook, hn, rfl⟩ := CapDir.statWith_eq_ok.1 hm
  rw [hat.tree] at hroot hlook hn ⊢
  obtain rfl := Option.some.inj (hroot.symm.trans hat.path)
  obtain rfl := Tree.eq_of_lookup_name hc.isPlain hlook
  exact ⟨n, hn, rfl⟩

theorem locate_of_name (hc : IsComponent c) (hl : v.locate p true h = .ok l)
    (hbare : ¬ v.Covers l.mount (l.relative ++ [c])) : v.locate (p.push c hc) false h =
      .ok ⟨l.mount, l.relative ++ [c], l.virtualPath.push c hc⟩ := by
  rw [locate_push hl]
  refine exact_of_not_covers (mem_of_locate hl) hbare ?_
  rw [VirtualPath.components_push, components_of_locateExact (exact_of_locate hl),
    List.append_assoc]

theorem locate_of_unlinked (hc : IsComponent c) (hs : v.SpelledWay h p true)
    (hl : v.locate p true h = .ok l) (hbare : ¬ v.Covers l.mount (l.relative ++ [c]))
    (hlink : (h.tree l.mount.dir.tree).linkAt (l.relative ++ [c]) = none) :
    v.locate (p.push c hc) true h =
        .ok ⟨l.mount, l.relative ++ [c], l.virtualPath.push c hc⟩ ∧
      v.SpelledWay h (p.push c hc) true := by
  have hmore : ∀ c' ∈ [c], Queued c' := by simpa using hc.queued
  obtain ⟨k, hfollow, hclear, -, htargets⟩ := follow_more (p.push c hc) hs
    (fun c hc => (p.valid c hc).queued) hmore clear_root hl
  have hexact : v.locateExact (l.virtualPath.push c hc) =
      .ok ⟨l.mount, l.relative ++ [c], l.virtualPath.push c hc⟩ :=
    (locate_push hl).symm.trans (locate_of_name hc hl hbare)
  have hscan : v.scan h true none l.virtualPath [c] = .reached (l.virtualPath.push c hc) := by
    rw [scan_eq_trace hmore hclear cursorOn_none, trace, VirtualPath.resolve_component _ hc]
    dsimp only
    rw [hexact]
    dsimp only
    rw [if_neg (by simp [Located.link, hlink]), trace]
  constructor
  · rw [locate, VirtualPath.components_push, hfollow, follow_reached hscan, hexact]
  · intro t ht
    rw [targetsOf, VirtualPath.components_push, htargets, (scan_more k hmore hmore hclear hscan).1,
      List.append_nil] at ht
    exact hs t ht

theorem opened_of_name {d' : Dir} (hc : IsComponent c) (hd : v.Opened h dir p)
    (hbare : ∀ l, v.locate p true h = .ok l → ¬ v.Covers l.mount (l.relative ++ [c]))
    (hlink : ∀ l, v.locate p true h = .ok l →
      (h.tree l.mount.dir.tree).linkAt (l.relative ++ [c]) = none)
    (hd' : dir.openDir c h = .ok d') : v.Opened h d' (p.push c hc) := by
  obtain ⟨l, hat⟩ := exists_handleAt hd.spelled hd.opens
  obtain ⟨hloc, hspelled⟩ := locate_of_unlinked hc hd.spelled hat.locate
    (hbare l hat.locate) (hlink l hat.locate)
  obtain ⟨c', hname, hopen⟩ := except_bind_eq_ok.1 hd'
  obtain ⟨rfl, -⟩ := component_eq_ok.1 hname
  cases hi : dir.inner.openDir [c'] h with
  | error e =>
    rw [hi] at hopen
    cases hopen
  | ok inner =>
    rw [hi] at hopen
    obtain rfl := Except.ok.inj hopen
    obtain ⟨root, s, i, hroot, hlook, hnode, rfl⟩ := CapDir.openDir_eq_ok.1 hi
    rw [hat.tree] at hroot hlook hnode
    obtain rfl := Option.some.inj (hroot.symm.trans hat.path)
    have hwalk := (Tree.lookup_eq_ok.1 hlook).2.2
    rw [Tree.walk, Tree.descend_unlinked_name hc.isPlain (hlink l hat.locate)] at hwalk
    obtain rfl := Except.ok.inj hwalk
    refine ⟨(openDir_eq_ok hspelled).2 ⟨_, i, hloc, hnode, ?_⟩, hspelled⟩
    rw [hat.tree, hat.writable]

/-! ## The root -/

theorem stat_of_path {m : Metadata} (hs : v.SpelledWay h p false)
    (hm : v.symlinkMetadata p h = .ok m) : ∃ l n, v.locate p false h = .ok l ∧
      (h.tree l.mount.dir.tree).node l.relative = some n ∧
      m = nodeMetadata h l.mount.dir.tree n := by
  obtain ⟨l, hl, hm⟩ := except_bind_eq_ok.1 hm
  have hexact := exact_of_locate hl
  have habove := (clear_of_spelledWay hs hl).1
  have hino := v.roots l.mount (mem_of_locate hl)
  rcases List.eq_nil_or_concat' l.relative with hnil | ⟨rel, name, hrel⟩
  · rw [hnil] at hm
    obtain rfl := Except.ok.inj hm
    refine ⟨l, _, hl, by rw [hnil]; exact Tree.root_eq _, ?_⟩
    rw [CapDir.dirMetadata, hino]
    rfl
  · have hplain : ∀ c ∈ rel ++ [name], IsPlain c := fun c hc =>
      (isComponent_of_exact hexact (hrel ▸ hc)).isPlain
    have hparent : ∀ d : CapDir, d.tree = l.mount.dir.tree →
        (h.tree d.tree).pathOf d.ino = some rel → Vfs.symlinkMetadataAt d name h = .ok m →
        ∃ n, (h.tree l.mount.dir.tree).node l.relative = some n ∧
          m = nodeMetadata h l.mount.dir.tree n := by
      intro d htree hpath hm
      unfold Vfs.symlinkMetadataAt at hm
      split_ifs at hm with hnul
      obtain ⟨root, s, n, hroot, hlook, hn, rfl⟩ := CapDir.statWith_eq_ok.1 hm
      obtain rfl := Option.some.inj (hroot.symm.trans hpath)
      obtain rfl := Tree.eq_of_lookup_name (hplain name (by simp)) hlook
      rw [htree] at hn ⊢
      rw [hrel]
      exact ⟨n, hn, rfl⟩
    rw [hrel, List.getLast?_concat, List.dropLast_concat] at hm
    dsimp only at hm
    split_ifs at hm with hrel'
    · obtain ⟨n, hn, rfl⟩ := hparent _ rfl (by rw [pathOf_root hexact, hrel']) hm
      exact ⟨l, n, hl, hn, rfl⟩
    · obtain ⟨d, hd, hstat⟩ := except_bind_eq_ok.1 hm
      obtain ⟨root, s, i, hroot, hlook, hnode, rfl⟩ := CapDir.openDir_eq_ok.1 hd
      obtain rfl := Option.some.inj (hroot.symm.trans (pathOf_root hexact))
      have hsame : s = [] ++ rel := by
        refine Tree.walk_clear (fun c hc => hplain c (List.mem_append_left _ hc))
          (fun q hq _ _ => habove.link_above hexact ?_ ?_) (Tree.lookup_eq_ok.1 hlook).2.2
        · rw [hrel]
          exact hq.trans (List.prefix_append _ _)
        · rw [hrel, List.nil_append]
          exact fun he => absurd hq.length_le (by rw [he]; simp)
      rw [List.nil_append] at hsame
      subst hsame
      obtain ⟨n, hn, rfl⟩ := hparent ⟨l.mount.dir.tree, i⟩ rfl (Tree.pathOf_eq_some.2 hnode) hstat
      exact ⟨l, n, hl, hn, rfl⟩

/-! ## One entry -/

variable {it : IntoIter}

variable (v h) in
/-- An entry the walk has come to, before it is followed: it is seen, and where it is descended into
that is by its path. -/
structure Met (it : IntoIter) (dent : DirEntry) : Prop where
  seen : v.Seen h dent
  followed : dent.followed = false
  link : dent.isSymlink = dent.metadata.isSymlink
  opens : dent.isSymlink = false ∨ dent.depth = 0 →
    ∀ dir, it.openChild h v dent = .ok dir → v.Opened h dir dent.path
  way : it.opts.followLinks = true → dent.isSymlink = true → v.SpelledWay h dent.path true

theorem Visiting.enter {identity : Option FileIdentity} (hit : v.Visiting h it)
    (hdir : v.Opened h dir dent.path) :
    v.Visiting h (IntoIter.enter h dent dir identity it).2 := by
  unfold IntoIter.enter
  cases dir.entryNames h with
  | error e => exact hit
  | ok names => exact ⟨hit.vfs, hit.started, List.forall_mem_cons.2 ⟨hdir, hit.frames⟩, hit.withheld⟩

theorem Visiting.push (hit : v.Visiting h it)
    (hopens : ∀ dir, it.openChild h v dent = .ok dir → v.Opened h dir dent.path) :
    v.Visiting h (IntoIter.push h v dent it).2 := by
  unfold IntoIter.push
  cases hopen : it.openChild h v dent with
  | error e => exact hit
  | ok dir =>
    have hdir := hopens dir hopen
    dsimp only
    generalize (if (it.opts.followLinks || it.opts.sameFileSystem) = true then some dir.identity
      else none) = identity
    split
    · exact hit
    · have hroot : v.Visiting h (if dent.depth = 0 then
          { it with rootDevice := identity.map FileIdentity.device } else it) := by
        split_ifs
        · exact ⟨hit.vfs, hit.started, hit.frames, hit.withheld⟩
        · exact hit
      split
      · exact hroot
      · exact hroot.enter hdir

theorem Visiting.descend (hit : v.Visiting h it)
    (hopens : dent.isSymlink = false ∨ dent.depth = 0 →
      ∀ dir, it.openChild h v dent = .ok dir → v.Opened h dir dent.path) :
    v.Visiting h (IntoIter.descend h v dent it).2 := by
  unfold IntoIter.descend
  split_ifs with hdir hroot
  · refine hit.push (hopens (Or.inl ?_))
    unfold IntoIter.isNormalDir at hdir
    rw [Bool.and_eq_true, Bool.not_eq_true'] at hdir
    exact hdir.1
  · have hdepth : dent.depth = 0 := by
      rw [Bool.and_eq_true, Bool.and_eq_true, decide_eq_true_eq] at hroot
      exact hroot.1.1
    unfold IntoIter.pushRootLink
    cases (v.metadata dent.path h).1 with
    | error e => exact hit
    | ok md =>
      dsimp only
      split_ifs
      · exact hit.push (hopens (Or.inr hdepth))
      · exact hit
  · exact hit

theorem Visiting.settle (hit : v.Visiting h it) (hseen : v.Seen h dent) :
    v.Visiting h (IntoIter.settle dent it).2 ∧
      ∀ d, (IntoIter.settle dent it).1 = some (.ok d) → v.Seen h d := by
  unfold IntoIter.settle
  split_ifs
  · exact ⟨⟨hit.vfs, hit.started, hit.frames, List.forall_mem_cons.2 ⟨hseen, hit.withheld⟩⟩,
      fun _ h => by cases h⟩
  · exact ⟨hit, fun _ h => by cases h⟩
  · exact ⟨hit, fun _ h => by cases h; exact hseen⟩

theorem Seen.follow {d : DirEntry} (hseen : v.Seen h dent) (hfollowed : dent.followed = false)
    (hlink : dent.metadata.isSymlink = true) (hd : IntoIter.follow h v dent = .ok d) :
    v.Seen h d ∧ d.path = dent.path ∧ d.depth = dent.depth ∧ d.isSymlink = false ∧
      d.followed = true := by
  obtain ⟨l, n, hl, hbare, hn, hmeta⟩ := hseen
  rw [if_neg (by simp [hfollowed])] at hmeta
  unfold IntoIter.follow at hd
  cases hm : (v.metadata dent.path h).1 with
  | error e =>
    rw [hm] at hd
    cases hd
  | ok md =>
    rw [hm] at hd
    obtain rfl := Except.ok.inj hd
    refine ⟨⟨l, n, hl, hbare, hn, ?_⟩, rfl, rfl, rfl, rfl⟩
    rw [hmeta] at hlink
    exact (if_pos rfl).mpr ⟨Metadata.isSymlink_iff.1 hlink, hm⟩

variable {x : Option Item × IntoIter}

theorem Visiting.arrange (hit : v.Visiting h it) (hseen : v.Seen h dent)
    (hopens : dent.isSymlink = false ∨ dent.depth = 0 →
      ∀ dir, it.openChild h v dent = .ok dir → v.Opened h dir dent.path)
    (hx : x = match IntoIter.descend h v dent it with
      | (.error e, it) => (some (.error e), it)
      | (.ok (), it) => IntoIter.settle dent it) :
    v.Visiting h x.2 ∧ ∀ d, x.1 = some (.ok d) → v.Seen h d := by
  have hdesc := hit.descend hopens
  cases hd : IntoIter.descend h v dent it with
  | mk r it' =>
    rw [hd] at hdesc hx
    cases r with
    | error e =>
      subst hx
      exact ⟨hdesc, fun _ h => by cases h⟩
    | ok u =>
      subst hx
      exact hdesc.settle hseen

/-- **One entry.** It is seen, and so is the walk into it. -/
theorem Visiting.handleEntry (hit : v.Visiting h it) (hmet : v.Met h it dent) :
    v.Visiting h (IntoIter.handleEntry h v dent it).2 ∧
      ∀ d, (IntoIter.handleEntry h v dent it).1 = some (.ok d) → v.Seen h d := by
  unfold IntoIter.handleEntry
  split_ifs with hfol
  · rw [Bool.and_eq_true] at hfol
    cases hd : IntoIter.follow h v dent with
    | error e => exact ⟨hit, fun _ h => by cases h⟩
    | ok d =>
      obtain ⟨hseen, hpath, -, -, hfollowed⟩ :=
        hmet.seen.follow hmet.followed (hmet.link ▸ hfol.2) hd
      refine hit.arrange hseen (fun _ dir hopen => ?_) rfl
      have hpathwise : it.openChild h v d = (v.openDir d.path h).mapError
          (.io d.depth (some d.display)) := by
        unfold IntoIter.openChild
        rw [hfollowed]
        cases it.stack <;> rfl
      rw [hpathwise] at hopen
      cases ho : v.openDir d.path h with
      | error e =>
        rw [ho] at hopen
        cases hopen
      | ok dir' =>
        rw [ho] at hopen
        obtain rfl := Except.ok.inj hopen
        exact ⟨ho, hpath ▸ hmet.way hfol.1 hfol.2⟩
  · exact hit.arrange hmet.seen hmet.opens rfl

theorem met_of_child {frame : Frame} {below : List Frame} (hstack : it.stack = frame :: below)
    (hdepth : it.depth ≠ 0) (hframe : v.Opened h frame.dir frame.path)
    (hsure : v.SureName h it.opts frame.path c)
    (hchild : IntoIter.childOf h frame it.depth c = .ok dent) : v.Met h it dent := by
  obtain ⟨l, hat⟩ := exists_handleAt hframe.spelled hframe.opens
  unfold IntoIter.childOf at hchild
  cases hq : frame.path.resolve c with
  | error e =>
    rw [hq] at hchild
    cases hchild
  | ok q =>
    rw [hq] at hchild
    dsimp only at hchild
    cases hm : frame.dir.symlinkMetadata c h with
    | error e =>
      rw [hm] at hchild
      cases hchild
    | ok m =>
      rw [hm] at hchild
      obtain ⟨c', hname, -⟩ := except_bind_eq_ok.1 hm
      obtain ⟨rfl, hc, rfl⟩ := push_of_component hname hsure.spelled hq
      obtain ⟨n, hn, rfl⟩ := stat_of_name hat hc hm
      have hbare := hsure.bare l hat.locate
      obtain rfl := Except.ok.inj hchild
      refine ⟨⟨_, n, locate_of_name hc hat.locate hbare, hbare, hn, rfl⟩, rfl, rfl, ?_,
        fun hfol _ => hsure.way hfol _ hq⟩
      intro hplain dir hopen
      have hunlinked : ∀ l', v.locate frame.path true h = .ok l' →
          (h.tree l'.mount.dir.tree).linkAt (l'.relative ++ [c']) = none := by
        intro l' hl'
        obtain rfl := Except.ok.inj (hat.locate.symm.trans hl')
        cases hlink : (h.tree l.mount.dir.tree).linkAt (l.relative ++ [c']) with
        | none => rfl
        | some target =>
          obtain ⟨i, hi⟩ := Tree.linkAt_eq_some.1 hlink
          obtain rfl := Option.some.inj (hn.symm.trans hi)
          cases hplain.resolve_right hdepth
      unfold IntoIter.openChild at hopen
      rw [hstack] at hopen
      dsimp only at hopen
      cases ho : frame.dir.openDir c' h with
      | error e =>
        rw [ho] at hopen
        cases hopen
      | ok d =>
        rw [ho] at hopen
        obtain rfl := Except.ok.inj hopen
        exact opened_of_name hc hframe hsure.bare hunlinked ho

/-! ## One round -/

theorem getDeferredDir_eq (it : IntoIter) : ∃ ds, it.getDeferredDir.2 =
    { it with deferredDirs := ds } ∧ ds ⊆ it.deferredDirs ∧
      ∀ d, it.getDeferredDir.1 = some d → d ∈ it.deferredDirs := by
  unfold IntoIter.getDeferredDir
  by_cases hdue : (it.opts.contentsFirst && decide (it.depth < it.deferredDirs.length)) = true
  · rw [if_pos hdue]
    cases hds : it.deferredDirs with
    | nil =>
      refine ⟨[], ?_, List.Subset.refl _, fun _ h => by cases h⟩
      dsimp only
      rw [← hds]
    | cons d rest =>
      refine ⟨rest, rfl, List.subset_cons_self _ _, fun d' hd' => ?_⟩
      dsimp only at hd'
      split_ifs at hd'
      obtain rfl := Option.some.inj hd'
      exact List.mem_cons_self
  · rw [if_neg hdue]
    exact ⟨it.deferredDirs, rfl, List.Subset.refl _, fun _ h => by cases h⟩

theorem Visiting.pop (hit : v.Visiting h it) : v.Visiting h it.pop :=
  ⟨hit.vfs, hit.started, fun f hf => hit.frames f (List.mem_of_mem_tail hf), hit.withheld⟩

theorem Visiting.deferred (hit : v.Visiting h it) : v.Visiting h it.getDeferredDir.2 ∧
    ∀ d, it.getDeferredDir.1 = some d → v.Seen h d := by
  obtain ⟨ds, hds, hsub, hmem⟩ := getDeferredDir_eq it
  rw [hds]
  exact ⟨⟨hit.vfs, hit.started, hit.frames, fun d hd => hit.withheld d (hsub hd)⟩,
    fun d hd => hit.withheld d (hmem d hd)⟩

theorem Visiting.take {frame : Frame} {below : List Frame} (hit : v.Visiting h it)
    (hstack : it.stack = frame :: below) (hdepth : it.depth ≠ 0)
    (hsure : v.SureName h it.opts frame.path c)
    (hx : x = match it.childEntry h c with
      | .error e => (some (.error e), it)
      | .ok dent => IntoIter.handleEntry h v dent it) :
    v.Visiting h x.2 ∧ ∀ d, x.1 = some (.ok d) → v.Seen h d := by
  unfold IntoIter.childEntry at hx
  rw [hstack] at hx
  dsimp only at hx
  have hframe := hit.frames frame (by rw [hstack]; exact List.mem_cons_self)
  cases hchild : IntoIter.childOf h frame it.depth c with
  | error e =>
    rw [hchild] at hx
    subst hx
    exact ⟨hit, fun _ h => by cases h⟩
  | ok dent =>
    rw [hchild] at hx
    subst hx
    exact hit.handleEntry (met_of_child hstack hdepth hframe hsure hchild)

/-- **One round.** What it yields is seen. -/
theorem Visiting.turn (hit : v.Visiting h it) (hne : it.stack ≠ [])
    (hsure : ∀ p c, it.takes = some (p, c) → v.SureName h it.opts p c) :
    v.Visiting h (it.turn h v).2 ∧ ∀ d, (it.turn h v).1 = some (.ok d) → v.Seen h d := by
  have hset : v.Visiting h { it with depth := it.stack.length } :=
    ⟨hit.vfs, hit.started, hit.frames, hit.withheld⟩
  obtain ⟨hdef, hseen⟩ := hset.deferred
  obtain ⟨ds, hds, -⟩ := getDeferredDir_eq { it with depth := it.stack.length }
  unfold IntoIter.turn
  unfold IntoIter.takes at hsure
  cases hd : IntoIter.getDeferredDir { it with depth := it.stack.length } with
  | mk d it' =>
    rw [hd] at hdef hseen hds hsure
    cases d with
    | some d => exact ⟨hdef, fun d' h => by cases h; exact hseen d rfl⟩
    | none =>
      dsimp only at hds hsure ⊢
      subst hds
      unfold IntoIter.resume
      split_ifs at hsure ⊢ with hdeep
      · exact ⟨hdef.pop, fun _ h => by cases h⟩
      · unfold IntoIter.advance
        cases hstack : it.stack with
        | nil => exact absurd hstack hne
        | cons frame below =>
          rw [hstack] at hsure hdef
          dsimp only at hsure ⊢
          cases hentries : frame.entries with
          | nil => exact ⟨hdef.pop, fun _ h => by cases h⟩
          | cons c rest =>
            rw [hentries] at hsure
            dsimp only
            have hframe := hdef.frames frame List.mem_cons_self
            have hrest : v.Visiting h { it with
                stack := { frame with entries := rest } :: below
                deferredDirs := ds
                depth := (frame :: below).length } :=
              ⟨hit.vfs, hit.started, List.forall_mem_cons.2 ⟨hframe,
                fun f hf => hdef.frames f (List.mem_cons_of_mem _ hf)⟩, hdef.withheld⟩
            exact hrest.take rfl (Nat.succ_ne_zero _) (hsure _ _ rfl) rfl

/-! ## A whole walk -/

theorem Visiting.close (hit : v.Visiting h it) :
    v.Visiting h it.close.2 ∧ ∀ d, it.close.1 = some (.ok d) → v.Seen h d := by
  have hset : v.Visiting h { it with depth := it.stack.length } :=
    ⟨hit.vfs, hit.started, hit.frames, hit.withheld⟩
  obtain ⟨hdef, hseen⟩ := hset.deferred
  unfold IntoIter.close
  split_ifs
  · cases hd : IntoIter.getDeferredDir { it with depth := it.stack.length } with
    | mk d it' =>
      rw [hd] at hdef hseen
      cases d with
      | some d => exact ⟨hdef, fun d' h => by cases h; exact hseen d rfl⟩
      | none => exact ⟨⟨hdef.vfs, hdef.started, hdef.frames, hdef.withheld⟩, fun _ h => by cases h⟩
  · exact ⟨⟨hit.vfs, hit.started, hit.frames, hit.withheld⟩, fun _ h => by cases h⟩

variable {fuel : Nat}

theorem Visiting.loop (hit : v.Visiting h it)
    (hsure : v.SureRounds h fuel it) (hx : it.loop h v fuel = some x) :
    v.Visiting h x.2 ∧ ∀ d, x.1 = some (.ok d) → v.Seen h d := by
  induction fuel generalizing it with
  | zero => cases hx
  | succ fuel ih =>
    rw [IntoIter.loop] at hx
    by_cases hstack : it.stack = []
    · rw [if_pos (by simp [hstack])] at hx
      obtain rfl := Option.some.inj hx
      exact hit.close
    · rw [if_neg (by simp [hstack])] at hx
      obtain ⟨hnames, hrest⟩ := hsure hstack
      have hturn := hit.turn hstack hnames
      cases ht : it.turn h v with
      | mk item it' =>
        rw [ht] at hx hturn hrest
        cases item with
        | some item =>
          obtain rfl := Option.some.inj hx
          exact hturn
        | none => exact ih hturn.1 (hrest rfl) hx

theorem met_of_root {root : VirtualPath} {display : PathBuf} (hstack : it.stack = [])
    (hs : v.SpelledWay h root true) (hroot : IntoIter.rootEntry h v root display = .ok dent) :
    v.Met h it dent := by
  unfold IntoIter.rootEntry at hroot
  cases hm : v.symlinkMetadata root h with
  | error e =>
    rw [hm] at hroot
    cases hroot
  | ok m =>
    rw [hm] at hroot
    obtain rfl := Except.ok.inj hroot
    have hfalse : v.SpelledWay h root false := fun t ht =>
      hs t (targets_false_subset hs (fun c hc => (root.valid c hc).queued) clear_root ht)
    obtain ⟨l, n, hl, hn, rfl⟩ := stat_of_path hfalse hm
    refine ⟨⟨l, n, hl, not_covers_of_exact (exact_of_locate hl), hn, rfl⟩, rfl, rfl, ?_,
      fun _ _ => hs⟩
    intro _ dir hopen
    unfold IntoIter.openChild at hopen
    rw [hstack] at hopen
    dsimp only at hopen
    cases ho : v.openDir root h with
    | error e =>
      rw [ho] at hopen
      cases hopen
    | ok d =>
      rw [ho] at hopen
      obtain rfl := Except.ok.inj hopen
      exact ⟨ho, hs⟩

theorem Visiting.begin {root : VirtualPath} {display : PathBuf}
    (hit : v.Visiting h it) (hstack : it.stack = [])
    (hs : v.SpelledWay h root true)
    (hsure : ∀ dent, IntoIter.rootEntry h v root display = .ok dent →
      (IntoIter.handleEntry h v dent it).1 = none →
        v.SureRounds h fuel (IntoIter.handleEntry h v dent it).2)
    (hx : IntoIter.begin h v root display fuel it = some x) :
    v.Visiting h x.2 ∧ ∀ d, x.1 = some (.ok d) → v.Seen h d := by
  unfold IntoIter.begin at hx
  cases hentry : IntoIter.rootEntry h v root display with
  | error e =>
    rw [hentry] at hx
    obtain rfl := Option.some.inj hx
    exact ⟨⟨hit.vfs, hit.started, hit.frames, hit.withheld⟩, fun _ h => by cases h⟩
  | ok dent =>
    rw [hentry] at hx
    dsimp only at hx
    have hentered := hit.handleEntry (met_of_root hstack hs hentry)
    have hrounds := hsure dent hentry
    cases hh : IntoIter.handleEntry h v dent it with
    | mk item it' =>
      rw [hh] at hx hentered hrounds
      cases item with
      | some item =>
        obtain rfl := Option.some.inj hx
        exact hentered
      | none => exact hentered.1.loop (hrounds rfl) hx

/-- **One call.** -/
theorem Visiting.next (hit : v.Visiting h it)
    (hsure : it.deferred = none → it.done = false → v.SureNext h fuel it)
    (hx : it.next h fuel = some x) :
    v.Visiting h x.2 ∧ ∀ d, x.1 = some (.ok d) → v.Seen h d := by
  obtain ⟨vfs, start, deferred, opts, stack, ds, depth, device, done⟩ := it
  obtain rfl : vfs = some v := hit.vfs
  obtain rfl : start = none := hit.started
  unfold IntoIter.next at hx
  cases deferred with
  | some e =>
    obtain rfl := Option.some.inj hx
    exact ⟨⟨rfl, rfl, hit.frames, hit.withheld⟩, fun _ h => by cases h⟩
  | none =>
    cases done with
    | true =>
      obtain rfl := Option.some.inj hx
      exact ⟨hit, fun _ h => by cases h⟩
    | false => exact hit.loop (hsure rfl rfl) hx

variable {root : VirtualPath} {display : PathBuf} {opts : WalkOptions}

theorem visiting_rooted (hsure : v.SureNext h fuel (.rooted v root display opts))
    (hx : (IntoIter.rooted v root display opts).next h fuel = some x) :
    v.Visiting h x.2 ∧ ∀ d, x.1 = some (.ok d) → v.Seen h d := by
  have hfresh : v.Visiting h ⟨some v, none, none, opts, [], [], 0, none, false⟩ := by
    refine ⟨rfl, rfl, ?_, ?_⟩
    · exact fun _ hf => absurd hf List.not_mem_nil
    · exact fun _ hd => absurd hd List.not_mem_nil
  exact hfresh.begin rfl hsure.1 hsure.2 hx

/-- A walk that has not been called, or has its levels where their paths are; what it has yielded is
seen. -/
def Kept (v : Vfs) (h : Host) (root : VirtualPath) (display : PathBuf) (opts : WalkOptions)
    (s : IntoIter × List Item) : Prop :=
  (s.1 = .rooted v root display opts ∨ v.Visiting h s.1) ∧ ∀ d, .ok d ∈ s.2 → v.Seen h d

theorem kept_perform {s : IntoIter × List Item} {call : WalkCall}
    (hs : Kept v h root display opts s) (hsure : call.Sure v h s) :
    Kept v h root display opts (call.perform h s) := by
  obtain ⟨it, items⟩ := s
  obtain ⟨hit, hitems⟩ := hs
  cases call with
  | next fuel =>
    unfold WalkCall.perform
    dsimp only at hit hitems ⊢
    cases hx : it.next h fuel with
    | none => exact ⟨hit, hitems⟩
    | some x =>
      have hnext : v.Visiting h x.2 ∧ ∀ d, x.1 = some (.ok d) → v.Seen h d := by
        rcases hit with rfl | hit
        · exact visiting_rooted (hsure rfl rfl) hx
        · exact hit.next hsure hx
      obtain ⟨item, it'⟩ := x
      cases item with
      | none => exact ⟨Or.inr hnext.1, hitems⟩
      | some item =>
        refine ⟨Or.inr hnext.1, fun d hd => ?_⟩
        rcases List.mem_append.1 hd with hd | hd
        · exact hitems d hd
        · exact hnext.2 d (congrArg some (List.mem_singleton.1 hd).symm)
  | skipCurrentDir =>
    refine ⟨?_, hitems⟩
    unfold WalkCall.perform IntoIter.skipCurrentDir
    dsimp only at hit ⊢
    split_ifs
    · exact hit
    · rcases hit with rfl | hit
      · exact Or.inl rfl
      · exact Or.inr hit.pop

/-- **A walk.** What it yields, whatever calls are made of it, is what the entries' paths name. -/
theorem seen_run {calls : List WalkCall}
    (hcalls : Run.Along (WalkCall.perform h) (fun s call => call.Sure v h s)
      (.rooted v root display opts, []) calls) :
    Kept v h root display opts (calls.foldl (WalkCall.perform h)
      (.rooted v root display opts, [])) :=
  Run.invariant (fun _ _ hs hsure => kept_perform hs hsure) ⟨Or.inl rfl, fun _ h => by cases h⟩ hcalls

/-- **Handles, walks and paths.** Every entry a walk yields is of what its path names. Every handle a
chain of names ends at is the one the joined path opens, and so is every file opened there. -/
theorem named_by_path {calls : List WalkCall} {names : List OsStr} {d d' : Dir}
    (hcalls : Run.Along (WalkCall.perform h) (fun s call => call.Sure v h s)
      (.rooted v root display opts, []) calls)
    (hs : v.SpelledWay h p true) (hd : v.openDir p h = .ok d) (hsure : v.SureSteps h p names)
    (hd' : d.openDirs names h = .ok d') :
    (∀ e, .ok e ∈ (calls.foldl (WalkCall.perform h) (.rooted v root display opts, [])).2 →
      v.Seen h e) ∧
    ∃ q, joined p names = .ok q ∧ v.openDir q h = .ok d' ∧
      ∀ n r mode f h', q.resolve n = .ok r → SureStep v h q n r → SureOpen v h r mode →
        d'.openFile n mode h = (.ok f, h') → v.openWith r mode h = (.ok f, h') := by
  obtain ⟨q, hq, hopen, hspelled⟩ := openDirs_joined hs hd hsure hd'
  refine ⟨(seen_run hcalls).2, q, hq, hopen, ?_⟩
  intro n r mode f h' hr hstep hfile hf
  exact openWith_of_child hspelled hopen hr hstep hfile hf

end Seahaven.Vfs

namespace Seahaven.Vfs

open Host OsStr Op

section Fixture

attribute [local instance] composed

/-- `/work/lib`. -/
def libPath : VirtualPath := ⟨[os "work", os "lib"], by decide⟩

def bareHost : Host := .ofTrees [.ofEntries [([os "lib"], .dir), ([os "lib", os "notes"], .file)]]

/-- `/work/lib` is walked, and opened by its name from `/work`. -/
theorem lib_named : (∀ e, .ok e ∈ ([.next 3, .next 3].foldl (WalkCall.perform bareHost)
      (.rooted vendorVfs libPath [] .default, [])).2 → vendorVfs.Seen bareHost e) ∧
    ∃ q, joined ⟨[os "work"], by decide⟩ [os "lib"] = .ok q ∧
      vendorVfs.openDir q bareHost = .ok ⟨⟨0, 1⟩, true⟩ := by
  have hl : vendorVfs.locate libPath true bareHost = .ok ⟨workMount, [os "lib"], libPath⟩ := by
    decide
  have hwork : vendorVfs.locate ⟨[os "work"], by decide⟩ true bareHost =
      .ok ⟨workMount, [], ⟨[os "work"], by decide⟩⟩ := by decide
  have hcalls : Run.Along (WalkCall.perform bareHost)
      (fun s call => call.Sure vendorVfs bareHost s)
      (.rooted vendorVfs libPath [] .default, []) [.next 3, .next 3] := by
    refine ⟨fun _ _ => ⟨?_, fun e he hnone => ?_⟩, fun _ _ _ => ⟨?_, ?_⟩, trivial⟩
    · unfold SpelledWay
      decide
    · obtain rfl := Except.ok.inj (Eq.trans (by decide :
        (.ok ⟨libPath, [], os "lib", 0, ⟨0, 1, .dir, ⟨[], 0o644, 0, 0, 0, 0⟩⟩, false, false⟩ : Item) =
          IntoIter.rootEntry bareHost vendorVfs libPath []) he)
      cases hnone
    · intro p c htakes
      obtain ⟨rfl, rfl⟩ := Prod.mk.inj (Option.some.inj (Eq.trans (by decide :
        some (libPath, os "notes") = _) htakes))
      refine ⟨by decide, fun l hl' => ?_, fun h => by cases h⟩
      obtain rfl := Except.ok.inj (hl.symm.trans hl')
      decide
    · intro hnone
      cases hnone
  have hsteps : vendorVfs.SureSteps bareHost ⟨[os "work"], by decide⟩ [os "lib"] := by
    refine ⟨libPath, by decide, ⟨by decide, ?_, fun l hl' => ?_, Or.inl (by decide)⟩, trivial⟩
    · unfold GoodWay BadTarget Ungrammatical
      decide
    · obtain rfl := Except.ok.inj (hwork.symm.trans hl')
      decide
  have hspelled : vendorVfs.SpelledWay bareHost ⟨[os "work"], by decide⟩ true := by
    unfold SpelledWay
    decide
  have hopen : vendorVfs.openDir ⟨[os "work"], by decide⟩ bareHost = .ok ⟨⟨0, 0⟩, true⟩ := by decide
  have hchain : Dir.openDirs ⟨⟨0, 0⟩, true⟩ [os "lib"] bareHost = .ok ⟨⟨0, 1⟩, true⟩ := by decide
  obtain ⟨hseen, q, hq, hopened, -⟩ := named_by_path hcalls hspelled hopen hsteps hchain
  exact ⟨hseen, q, hq, hopened⟩

/-- **Past the nested mount.** The walk of `/work/lib` yields `/work/lib/vendor` from the first tree,
and the handle of `/work/lib` opens it there; the path is the nested mount's. -/
theorem vendor_unnamed : (∃ e, .ok e ∈ ([.next 3, .next 3].foldl (WalkCall.perform vendorHost)
        (.rooted vendorVfs libPath [] .default, [])).2 ∧ e.metadata.dev = 0 ∧
      vendorVfs.locate e.path false vendorHost = .ok ⟨vendorMount, [], e.path⟩ ∧
      ¬ vendorVfs.Seen vendorHost e) ∧
    ∃ d d' d₂ q, vendorVfs.openDir libPath vendorHost = .ok d ∧
      d.openDir (os "vendor") vendorHost = .ok d' ∧ libPath.resolve (os "vendor") = .ok q ∧
      vendorVfs.openDir q vendorHost = .ok d₂ ∧ d' ≠ d₂ := by
  refine ⟨⟨⟨vendorMount.at, [os "vendor"], os "vendor", 1, ⟨0, 2, .dir, ⟨[], 0o644, 0, 0, 0, 0⟩⟩,
    false, false⟩, by decide, rfl, by decide, ?_⟩, ⟨⟨0, 1⟩, true⟩, ⟨⟨0, 2⟩, true⟩, ⟨⟨1, 0⟩, false⟩,
    vendorMount.at, by decide, by decide, by decide, by decide, by decide⟩
  rintro ⟨l, n, hl, -, hn, hmeta⟩
  obtain rfl := Except.ok.inj ((by decide : vendorVfs.locate vendorMount.at false vendorHost =
    .ok ⟨vendorMount, [], vendorMount.at⟩).symm.trans hl)
  cases congrArg Metadata.dev hmeta

end Fixture

end Seahaven.Vfs
