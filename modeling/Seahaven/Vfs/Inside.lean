import Seahaven.Vfs.Shadow

/-!
# Links that stay in their mount

A link stays in its mount when its target, followed from the directory holding the link, never
climbs above the mount's directory (`storedTargetStaysInMount`). What a target may climb depends on
how deep the link lies.

1. Where every link stays and climbs only before it descends, the host's walks stay as well.
2. Requests keep every link of a mount staying, as long as no directory is renamed with a link in it
   that would leave from its new place, and no further name given to a link that would leave from
   there.
-/

namespace Seahaven.Vfs

open Host OsStr Op

/-! ## Staying and walking -/

def LinksStay (t : Tree) : Prop :=
  t.LinksAre fun p target => storedTargetStaysInMount p target = true

def climbsFirst : List OsStr → Bool
  | [] => true
  | c :: rest =>
    if c = [] ∨ c = dot ∨ c = dotdot then climbsFirst rest else rest.all (· ≠ dotdot)

def LinksClimbFirst (t : Tree) : Prop := t.LinksAre fun _ target => climbsFirst target.split = true

theorem staysFrom_of_no_dotdot {depth : Nat} {s : List OsStr} (hs : ∀ c ∈ s, c ≠ dotdot) :
    staysFrom depth s = true := by
  induction s generalizing depth with
  | nil => rfl
  | cons c s ih =>
    have hrest : ∀ d ∈ s, d ≠ dotdot := fun d hd => hs d (List.mem_cons_of_mem _ hd)
    unfold staysFrom
    rw [if_neg (hs c List.mem_cons_self)]
    split_ifs
    · exact ih hrest
    · exact ih hrest

theorem climbsFirst_of_no_dotdot {s : List OsStr} (hs : ∀ c ∈ s, c ≠ dotdot) :
    climbsFirst s = true := by
  induction s with
  | nil => rfl
  | cons c s ih =>
    have hrest : ∀ d ∈ s, d ≠ dotdot := fun d hd => hs d (List.mem_cons_of_mem _ hd)
    rw [climbsFirst]
    split_ifs
    · exact ih hrest
    · simpa using hrest

theorem staysFrom_append {depth : Nat} {s rest : List OsStr} (hs : staysFrom depth s = true)
    (hrest : ∀ c ∈ rest, c ≠ dotdot) : staysFrom depth (s ++ rest) = true := by
  induction s generalizing depth with
  | nil => exact staysFrom_of_no_dotdot hrest
  | cons c s ih =>
    rw [List.cons_append]
    unfold staysFrom at hs ⊢
    split_ifs at hs ⊢
    · exact ih hs
    · cases depth with
      | zero => cases hs
      | succ depth => exact ih hs
    · exact ih hs

theorem climbsFirst_append {s rest : List OsStr} (hs : climbsFirst s = true)
    (hrest : ∀ c ∈ rest, c ≠ dotdot) : climbsFirst (s ++ rest) = true := by
  induction s with
  | nil => exact climbsFirst_of_no_dotdot hrest
  | cons c s ih =>
    rw [List.cons_append]
    unfold climbsFirst at hs ⊢
    split_ifs at hs ⊢
    · exact ih hs
    · rw [List.all_append, hs, Bool.true_and]
      simpa using hrest

/-- How a walk along components that stay ends: it does not escape, and what is left behind a link
does not climb. -/
theorem descend_stays (t : Tree) (follow : Bool) {cur : HostPath} {s : List OsStr}
    (hs : staysFrom cur.length s = true) (hclimb : climbsFirst s = true) :
    t.descend [] follow cur s ≠ .escaped ∧ ∀ dir c target rest,
      t.descend [] follow cur s = .atLink dir c target rest →
        t.linkAt (dir ++ [c]) = some target ∧ ∀ d ∈ rest, d ≠ dotdot := by
  induction s generalizing cur with
  | nil => simp
  | cons c s ih =>
    -- past a name nothing climbs any more
    have hname : IsPlain c → ∀ d ∈ s, d ≠ dotdot := by
      intro hc
      rw [climbsFirst, if_neg (by simpa [not_or, IsPlain] using hc)] at hclimb
      simpa using hclimb
    cases t.meets cur c with
    | skip hc =>
      rw [Tree.descend_skip hc]
      unfold staysFrom at hs
      rw [if_pos hc] at hs
      rw [climbsFirst, if_pos (hc.imp_right Or.inl)] at hclimb
      exact ih hs hclimb
    | up hc =>
      subst hc
      unfold staysFrom at hs
      rw [if_neg (by decide), if_pos rfl] at hs
      rw [climbsFirst, if_pos (by simp)] at hclimb
      rcases List.eq_nil_or_concat cur with rfl | ⟨cur', d, rfl⟩
      · cases hs
      · rw [Tree.descend_dotdot, if_neg (by simp), List.concat_eq_append, List.dropLast_concat]
        rw [List.concat_eq_append, List.length_append] at hs
        exact ih hs hclimb
    | missing hc hn =>
      rw [Tree.descend_none hc hn]
      split_ifs
      · simp
      · simp
    | dir hc i hn =>
      rw [Tree.descend_dir hc hn]
      exact ih (staysFrom_of_no_dotdot (hname hc)) (climbsFirst_of_no_dotdot (hname hc))
    | link hc i target hn =>
      rw [Tree.descend_link hc hn]
      split_ifs
      · simp
      · refine ⟨by simp, fun dir c' target' rest heq => ?_⟩
        obtain ⟨rfl, rfl, rfl, rfl⟩ := Stop.atLink.inj heq
        exact ⟨Tree.linkAt_eq_some.2 ⟨i, hn⟩, hname hc⟩
    | leaf hc n hn hdir hlink =>
      rw [Tree.descend_leaf hc hn hdir hlink]
      split_ifs
      · simp
      · simp

/-- **The host stays.** Where links stay and climb only before they descend, no walk of components
that do so leaves the tree. -/
theorem walk_stays {t : Tree} {follow : Bool} {budget : Nat} {cur : HostPath} {s : List OsStr}
    (ht : LinksStay t) (hc : LinksClimbFirst t) (hs : staysFrom cur.length s = true)
    (hclimb : climbsFirst s = true) :
    t.walk [] follow budget cur s ≠ .error escapeAttempt := by
  induction budget generalizing cur s with
  | zero =>
    obtain ⟨hesc, -⟩ := descend_stays t follow hs hclimb
    rw [Tree.walk]
    cases hd : t.descend [] follow cur s with
    | escaped => exact absurd hd hesc
    | arrived p => simp
    | stuck dir c rest e => simp [escapeAttempt]
    | atLink dir c target rest => simp [escapeAttempt]
  | succ budget ih =>
    obtain ⟨hesc, hlink⟩ := descend_stays t follow hs hclimb
    rw [Tree.walk]
    cases hd : t.descend [] follow cur s with
    | escaped => exact absurd hd hesc
    | arrived p => simp
    | stuck dir c rest e => simp [escapeAttempt]
    | atLink dir c target rest =>
      obtain ⟨hat, hrest⟩ := hlink dir c target rest hd
      have hstay : storedTargetStaysInMount (dir ++ [c]) target = true := ht _ target hat
      rw [storedTargetStaysInMount, List.dropLast_concat, Bool.and_eq_true] at hstay
      dsimp only
      rw [if_neg (by simpa using hstay.1)]
      exact ih (staysFrom_append hstay.2 hrest) (climbsFirst_append (hc _ target hat) hrest)

/-! ## Runs -/

variable [Unicode]

theorem climbsFirst_relativeFrom {link target : List OsStr} (ht : ∀ c ∈ target, IsComponent c) :
    climbsFirst (relativeFrom link target).split = true := by
  unfold relativeFrom
  dsimp only
  split_ifs with hnil
  · decide
  · rw [split_join hnil]
    · have hnames : climbsFirst (target.drop (sharedLength link.dropLast target)) = true :=
        climbsFirst_of_no_dotdot fun c hc => (ht c (List.drop_subset _ _ hc)).ne_dotdot
      generalize link.dropLast.length - sharedLength link.dropLast target = n
      induction n with
      | zero => simpa using hnames
      | succ n ih => rwa [List.replicate_succ, List.cons_append, climbsFirst, if_pos (by simp)]
    · intro c hc
      rcases List.mem_append.1 hc with hc | hc
      · rw [List.eq_of_mem_replicate hc]
        decide
      · exact (ht c (List.drop_subset _ _ hc)).no_slash

variable {v : Vfs} {h : Host} {m : Mount} {l l' : Located} {r : Request}

theorem stays_of_movedLinkStays {target : OsStr} (hl : v.locateExact l.virtualPath = .ok l)
    (hlink : l.link h = some target) (hok : movedLinkStays l l' h = .ok ()) :
    storedTargetStaysInMount l'.relative target = true := by
  obtain ⟨i, hn⟩ := Tree.linkAt_eq_some.1 hlink
  have hm : l.mount.dir.symlinkMetadata l.relative h =
      .ok ⟨l.mount.dir.tree, i, .link target, (h.tree l.mount.dir.tree).attr i⟩ :=
    CapDir.statWith_eq_ok.2 ⟨[], l.relative, _, pathOf_root hl, lookup_of_link hl hlink, hn, rfl⟩
  unfold movedLinkStays at hok
  rw [hm] at hok
  dsimp only at hok
  rw [if_pos (show Metadata.isSymlink _ = true from rfl)] at hok
  obtain ⟨stored, hstored, hok⟩ := except_bind_eq_ok.1 hok
  rw [readLinkContents_of_link hl hlink] at hstored
  obtain rfl := Except.ok.inj hstored
  split_ifs at hok with _ hstays
  exact hstays

/-- A request that renames no directory of `m` with a link in it that would leave from its new
place, and gives no link there a further name from which it would leave. -/
def KeepsLinks (v : Vfs) (m : Mount) (h : Host) : Request → Prop
  | .rename src dst => ∀ l l', v.locate src false h = .ok l → v.locate dst false h = .ok l' →
      l.mount = m → l'.mount = m → m.access.isWritable = true → ∀ s target, s ≠ [] →
      (h.tree m.dir.tree).linkAt (l.relative ++ s) = some target →
      storedTargetStaysInMount (l'.relative ++ s) target = true
  | .hardLink original link => ∀ l l', v.locate original false h = .ok l →
      v.locate link false h = .ok l' → l.mount = m → l'.mount = m → m.access.isWritable = true →
      ∀ target, l.link h = some target → storedTargetStaysInMount l'.relative target = true
  | _ => True

/-- **One request.** What it makes of links stays where it comes to stand. -/
theorem allowsLinks_of_asks (hs : v.Spells h) (hr : v.KeepsLinks m h r) {e : Edit}
    (hask : Asks v h r m e) {h' : Host} (hplain : e.Plain ∨ h' = h) :
    (h'.tree m.dir.tree).AllowsLinks (fun p target => storedTargetStaysInMount p target = true)
      e := by
  have hpath : ∀ {path : VirtualPath} {l : Located} {p : HostPath},
      v.locate path false h = .ok l →
      (h.tree l.mount.dir.tree).lookup [] false l.relative = .ok p → p = l.relative :=
    fun hl hp => eq_of_lookup (clear_of_locate hs hl).1 (exact_of_locate hl) (by simp) hp
  cases hask with
  | make hk =>
    rcases hk with rfl | rfl
    · trivial
    · trivial
  | symlink hl hst hp =>
    obtain ⟨landing, lexical, -, -, hstays⟩ := storedTarget_eq_ok hst
    rw [← hpath hl hp] at hstays
    exact hstays
  | @rename src dst l l' sdir ddir sname dname n hl hl' hm hw hmoved hp hp' hn hempty =>
    obtain rfl := hplain.resolve_left fun h => h
    have hsrc := hpath hl hp
    have hdst := hpath hl' (by rwa [hm])
    intro s target hlink
    rw [hsrc] at hlink
    rw [hdst]
    by_cases hnil : s = []
    · subst hnil
      rw [List.append_nil] at hlink ⊢
      exact stays_of_movedLinkStays (exact_of_locate hl) hlink hmoved
    · exact hr l l' hl hl' rfl hm hw s target hnil hlink
  | @hardLink original link l l' p dir name n hl hl' hm hw hp hn hp' =>
    obtain rfl := hplain.resolve_left fun h => h
    have hdst := hpath hl' (by rwa [hm])
    intro target hlink
    rw [hpath hl hp] at hlink
    rw [hdst]
    exact hr l l' hl hl' rfl hm hw target hlink
  | truncate => trivial
  | removeFile => trivial
  | removeDir => trivial
  | removeDirAll => trivial
  | copy => trivial
  | setTimes => trivial
  | setPermissions => trivial

/-- **Links stay.** In a run over a mount whose links stay in it, whose requests keep them so, they
stay; and where at the start they climb only before they descend, the host follows none out of the
mount. -/
theorem links_run {h : Host} {rs : List Request} (hm : m ∈ v.table.mounts) (hs : v.Spells h)
    (hstay : LinksStay (h.tree m.dir.tree))
    (hrs : Run.Along (step v) (fun s r => r.OfVfs ∧ v.KeepsLinks m s.host r) ⟨h, []⟩ rs) :
    LinksStay ((rs.foldl (step v) ⟨h, []⟩).host.tree m.dir.tree) ∧
      (LinksClimbFirst (h.tree m.dir.tree) → ∀ p target,
        ((rs.foldl (step v) ⟨h, []⟩).host.tree m.dir.tree).linkAt p = some target →
        ∀ follow budget, ((rs.foldl (step v) ⟨h, []⟩).host.tree m.dir.tree).walk [] follow budget
          p.dropLast target.split ≠ .error escapeAttempt) := by
  let I : Mount → Tree → Prop := fun m' t => SpelledLinks t ∧ (m' = m → LinksStay t ∧
    (LinksClimbFirst (h.tree m.dir.tree) → LinksClimbFirst t))
  have hstep : ∀ s r, v.Holds I s.host → r.OfVfs ∧ v.KeepsLinks m s.host r →
      v.Holds I (step v s r).host := by
    intro s r hI ⟨hvfs, hr⟩
    rw [host_step]
    refine keepsAt_perform (R := Preserves (v.Holds I))
      (grants_of_apply fun h' m' e t _ hask hplain ht hk => ?_) hvfs s.dirs hI
    refine ⟨spelledLinks_of_asks hask hk.1 ht, ?_⟩
    rintro rfl
    obtain ⟨hstay, hclimb⟩ := hk.2 rfl
    exact ⟨hstay.apply (allowsLinks_of_asks (fun m hm => (hI m hm).1) hr hask hplain) ht,
      fun hstart => linksAre_of_asks (S := fun target => climbsFirst target.split = true)
        (fun _ _ htarget => climbsFirst_relativeFrom htarget) hask (hclimb hstart) ht⟩
  have hI : v.Holds I (rs.foldl (step v) ⟨h, []⟩).host :=
    Run.invariant (I := fun s => v.Holds I s.host) hstep
      (fun m' hm' => ⟨hs m' hm', by rintro rfl; exact ⟨hstay, fun h => h⟩⟩) hrs
  obtain ⟨hstay', hclimb'⟩ := (hI m hm).2 rfl
  refine ⟨hstay', fun hstart p target hp follow budget => ?_⟩
  have hlink : storedTargetStaysInMount p target = true := hstay' p target hp
  rw [storedTargetStaysInMount, Bool.and_eq_true] at hlink
  exact walk_stays hstay' (hclimb' hstart) hlink.2 (hclimb' hstart p target hp)

end Seahaven.Vfs

namespace Seahaven.Vfs

open Host OsStr Op

section Fixture

attribute [local instance] composed

/-- A host whose first tree holds `notes`, and in `a/b` a link to it. -/
def linkedHost : Host := .ofTrees [.ofEntries [([os "notes"], .file), ([os "a"], .dir),
  ([os "a", os "b"], .dir), ([os "a", os "b", os "up"], .link (os "../../notes"))]]

/-- `/work`, writable and alone. -/
def soleMount : Mount := ⟨⟨[os "work"], work_valid⟩, ⟨0, 0⟩, none, none, .readWrite, false⟩

def soleVfs : Vfs where
  table := .fromMounts [soleMount] (by decide)
  roots := by decide
  apart := by decide

theorem spells_linkedHost : soleVfs.Spells linkedHost := by
  have hkeys : ∀ m ∈ soleVfs.table.mounts, ∀ p ∈ (linkedHost.tree m.dir.tree).keys,
      ∀ target ∈ (linkedHost.tree m.dir.tree).linkAt p, ∀ c ∈ target.components, Spelled c := by
    decide
  exact fun m hm => Tree.linksAre_of_keys (hkeys m hm)

theorem linksStay_linkedHost : LinksStay (linkedHost.tree 0) := Tree.linksAre_of_keys (by decide)

/-- **A directory takes its links along.** Renaming `/work/a/b` to `/work/b` leaves the link in it
one directory short: the host follows it out of the mount. -/
theorem links_renamed : LinksStay (linkedHost.tree 0) ∧
      ((step soleVfs ⟨linkedHost, []⟩ (.rename ⟨[os "work", os "a", os "b"], by decide⟩
        ⟨[os "work", os "b"], by decide⟩)).host.tree 0).linkAt [os "b", os "up"] =
          some (os "../../notes") ∧
      ((step soleVfs ⟨linkedHost, []⟩ (.rename ⟨[os "work", os "a", os "b"], by decide⟩
        ⟨[os "work", os "b"], by decide⟩)).host.tree 0).walk [] true maxSymlinks [os "b"]
          (os "../../notes").split = .error escapeAttempt := by
  refine ⟨linksStay_linkedHost, ?_, ?_⟩
  · decide
  · decide

/-- Renamed beside where it was, the directory keeps its link staying, and so does a new link. -/
theorem links_run_beside : LinksStay ((([.rename ⟨[os "work", os "a", os "b"], by decide⟩
        ⟨[os "work", os "a", os "c"], by decide⟩,
      .symlink ⟨[os "work", os "a", os "c", os "new"], by decide⟩ (os "../../notes")] :
        List Request).foldl (step soleVfs) ⟨linkedHost, []⟩).host.tree 0) := by
  refine (links_run (m := soleMount) (by decide) spells_linkedHost linksStay_linkedHost ?_).1
  refine ⟨⟨trivial, fun l l' hl hl' _ _ _ s target _ hlink => ?_⟩, ⟨trivial, trivial⟩, trivial⟩
  obtain rfl : (⟨soleMount, [os "a", os "b"], ⟨[os "work", os "a", os "b"], by decide⟩⟩ : Located) =
    l := Except.ok.inj (Eq.trans (by decide) hl)
  obtain rfl : (⟨soleMount, [os "a", os "c"], ⟨[os "work", os "a", os "c"], by decide⟩⟩ : Located) =
    l' := Except.ok.inj (Eq.trans (by decide) hl')
  have hmoved : ∀ p ∈ (linkedHost.tree 0).keys, ∀ target ∈ (linkedHost.tree 0).linkAt p,
      [os "a", os "b"] <+: p →
        storedTargetStaysInMount ([os "a", os "c"] ++ p.drop 2) target = true := by decide
  obtain ⟨i, hi⟩ := Tree.linkAt_eq_some.1 hlink
  exact hmoved _ ((linkedHost.tree 0).mem_keys _ _ hi) target hlink (List.prefix_append _ _)

end Fixture

end Seahaven.Vfs
