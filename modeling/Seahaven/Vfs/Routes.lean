import Seahaven.Vfs.Listing
import Seahaven.Vfs.Lockstep

/-!
# Two routes to a path

`at` tries a path in one step, beneath the mount that governs it as it is written, and walks it with
`locate` only where that is refused or the mount shadows another.

1. `OneRoute`: both routes lead to one host object, or neither leads to any.
2. They do where the host's own walk is firm, and no link lies above the mount point.
-/

namespace Seahaven.Vfs

open Host OsStr Op

variable [Unicode] {v : Vfs} {h : Host} {p : VirtualPath} {l d : Located} {x : Nat × HostPath}

/-- The host object a location leads to, following a last link: its tree and its path there. -/
def objectAt (l : Located) (h : Host) : Except IoError (Nat × HostPath) :=
  if l.relative = [] then .ok (l.mount.dir.tree, [])
  else l.mount.dir.ask (fun t root =>
    (t.stat root true l.relative).map fun (path, _) => (l.mount.dir.tree, path)) h

/-- The object `at` leads to. -/
def oneStep (v : Vfs) (p : VirtualPath) (h : Host) : Except IoError (Nat × HostPath) :=
  v.answer p true objectAt h

def stepwise (v : Vfs) (p : VirtualPath) (h : Host) : Except IoError (Nat × HostPath) :=
  v.locate p true h >>= fun l => objectAt l h

def IsThere (v : Vfs) (h : Host) (q : VirtualPath) : Prop :=
  ∃ l x, v.locateExact q = .ok l ∧ objectAt l h = .ok x

/-- Both routes lead to one object, and what is canonicalized is what can be asked about. -/
structure OneRoute (v : Vfs) (h : Host) (p : VirtualPath) : Prop where
  same : ∀ x, v.oneStep p h = .ok x ↔ v.stepwise p h = .ok x
  canonical : (∃ q, v.canonicalize p h = .ok q ∧ v.IsThere h q) ↔
    ∃ facts, (v.facts p true h).1 = .ok (some facts)

def Direct (v : Vfs) (h : Host) (p : VirtualPath) : Prop :=
  ∀ d, v.locateExact p = .ok d → d.mount.shadowsNested = true ∨
    (∃ e, objectAt d h = .error e ∧ e.kind = .permissionDenied) ∨
    v.ClearAbove h d.mount.at ∧ v.SpelledWay h p true ∧
      (h.tree d.mount.dir.tree).firm true maxSymlinks [] d.relative = true

/-! ## What is asked and what is there -/

theorem objectAt_eq_ok (hl : v.locateExact p = .ok l) : objectAt l h = .ok x ↔
    x.1 = l.mount.dir.tree ∧ ((l.relative = [] ∧ x.2 = []) ∨
      (h.tree l.mount.dir.tree).lookup [] true l.relative = .ok x.2 ∧
        (h.tree l.mount.dir.tree).isPresent x.2 = true) := by
  obtain ⟨i, path⟩ := x
  unfold objectAt
  split_ifs with hnil
  · have hno : ∀ q, (h.tree l.mount.dir.tree).lookup [] true [] ≠ .ok q :=
      fun q hq => (Tree.lookup_eq_ok.1 hq).1 rfl
    simp only [hnil, hno, Except.ok.injEq, Prod.mk.injEq, true_and, false_and, or_false]
    exact and_congr eq_comm eq_comm
  · simp only [CapDir.ask, pathOf_root hl, hnil, false_and, false_or]
    cases hs : (h.tree l.mount.dir.tree).stat [] true l.relative with
    | ok a =>
      obtain ⟨q, n⟩ := a
      obtain ⟨hlook, hn⟩ := Tree.stat_eq_ok.1 hs
      have hpres := Tree.isPresent_iff.2 ⟨n, hn⟩
      simp only [Except.map, Except.ok.injEq, Prod.mk.injEq, hlook]
      constructor
      · rintro ⟨rfl, rfl⟩
        exact ⟨rfl, rfl, hpres⟩
      · rintro ⟨rfl, rfl, -⟩
        exact ⟨rfl, rfl⟩
    | error e =>
      simp only [Except.map, reduceCtorEq, false_iff]
      rintro ⟨-, hlook, hpres⟩
      obtain ⟨n, hn⟩ := Tree.isPresent_iff.1 hpres
      rw [Tree.stat_eq_ok.2 ⟨hlook, hn⟩] at hs
      cases hs

def factsOf (h : Host) (x : Nat × HostPath) : FileFacts :=
  match (h.tree x.1).node x.2 with
  | some n => .ofMetadata (nodeMetadata h x.1 n)
  | none => .ofMetadata ⟨x.1, 0, .file, (h.tree x.1).attr 0⟩

theorem factsAt_eq (hm : l.mount ∈ v.table.mounts) :
    (factsAt true l h).1 = (objectAt l h).map (factsOf h) := by
  have hino := v.roots l.mount hm
  rw [factsAt, read_apply, objectAt]
  by_cases hnil : l.relative = []
  · have hroot := (h.tree l.mount.dir.tree).root_eq
    rw [if_pos hnil, if_pos hnil]
    simp only [Except.map, factsOf, hroot, nodeMetadata, CapDir.dirMetadata, hino]
  · rw [if_neg hnil, if_neg hnil, if_pos rfl]
    simp only [CapDir.metadata, CapDir.statWith, CapDir.ask, hino, Tree.pathOf_zero]
    cases hs : (h.tree l.mount.dir.tree).stat [] true l.relative with
    | error e => rfl
    | ok a =>
      obtain ⟨q, n⟩ := a
      simp only [Except.map, factsOf, (Tree.stat_eq_ok.1 hs).2]
      rfl

theorem facts_eq : (v.facts p true h).1 = .ok ((v.oneStep p h).map (factsOf h)).toOption := by
  have hanswer : v.answer p true (fun l h => (factsAt true l h).1) h =
      (v.oneStep p h).map (factsOf h) := answer_map fun _ hm => factsAt_eq hm
  rw [← hanswer]
  rfl

theorem exists_facts : (∃ facts, (v.facts p true h).1 = .ok (some facts)) ↔
    ∃ x, v.oneStep p h = .ok x := by
  rw [facts_eq]
  cases v.oneStep p h with
  | error e => simp [Except.map, Except.toOption]
  | ok x => simp [Except.map, Except.toOption]

theorem exists_canonical : (∃ q, v.canonicalize p h = .ok q ∧ v.IsThere h q) ↔
    ∃ x, v.stepwise p h = .ok x := by
  unfold canonicalize locateFollow stepwise
  cases hl : v.locate p true h with
  | error e => simp [Except.map, bind, Except.bind]
  | ok l =>
    have hexact := exact_of_locate hl
    simp only [Except.map, Except.ok.injEq, exists_eq_left', bind, Except.bind, IsThere, hexact]
    simp

theorem oneRoute_iff : v.OneRoute h p ↔
    ∀ x, v.oneStep p h = .ok x ↔ v.stepwise p h = .ok x :=
  ⟨OneRoute.same, fun hsame => ⟨hsame, by simp only [exists_canonical, exists_facts, hsame]⟩⟩

/-! ## Where the routes agree -/

theorem oneStep_eq : v.oneStep p h = v.locateExact p >>= fun d =>
    if d.mount.shadowsNested then v.stepwise p h
    else match objectAt d h with
      | .ok x => .ok x
      | .error e => if e.kind = .permissionDenied then v.stepwise p h else .error e := by
  rw [oneStep, answer_eq]
  cases v.locateExact p with
  | error e => rfl
  | ok d =>
    simp only [bind, Except.bind, stepwise]
    cases objectAt d h <;> rfl

theorem scan_of_ungoverned {q : VirtualPath} {pending : List OsStr}
    (hnone : v.table.resolve p = none) (hq : p.components = q.components ++ pending)
    (hne : pending ≠ []) : ∃ e, v.scan h true none q pending = .failed e := by
  induction pending generalizing q with
  | nil => exact absurd rfl hne
  | cons c pending ih =>
    have hcomp : IsComponent c := p.valid c (by rw [hq]; simp)
    have hqc : p.components = (q.push c hcomp).components ++ pending := by
      rw [VirtualPath.components_push, hq, List.append_assoc]
      rfl
    have herror : v.locateExact (q.push c hcomp) = .error (notFound (q.push c hcomp)) := by
      refine locateExact_eq_error.2 ⟨MountTable.resolve_eq_none.2 fun m hm hpre => ?_, rfl⟩
      exact MountTable.resolve_eq_none.1 hnone m hm (hpre.trans (hqc ▸ List.prefix_append _ _))
    rw [scan, q.resolve_component hcomp]
    dsimp only
    rw [herror]
    dsimp only
    split_ifs with hshape
    · exact ih hqc hshape.1
    · exact ⟨_, rfl⟩

theorem locate_of_ungoverned {e : IoError} (he : v.locateExact p = .error e) :
    ∃ e, v.locate p true h = .error e := by
  have hnone := (locateExact_eq_error.1 he).1
  unfold locate
  by_cases hnil : p.components = []
  · obtain rfl : p = .root := VirtualPath.ext hnil
    have hscan : v.scan h true none .root VirtualPath.root.components = .reached .root := rfl
    rw [follow_reached hscan]
    exact ⟨e, he⟩
  · obtain ⟨e', hscan⟩ := scan_of_ungoverned (h := h) hnone (q := .root) rfl hnil
    rw [follow_failed hscan]
    exact ⟨e', rfl⟩

theorem objectAt_clear (hl : v.locateExact p = .ok l) (hclear : v.Clear h p) :
    objectAt l h = .ok x ↔ x = (l.mount.dir.tree, l.relative) ∧
      (h.tree l.mount.dir.tree).isPresent l.relative = true := by
  obtain ⟨i, path⟩ := x
  have hlink : l.link h = none := by
    rw [← linkAt_of_exact hl]
    exact hclear p (List.prefix_refl _)
  rw [objectAt_eq_ok hl, Prod.mk.injEq]
  by_cases hnil : l.relative = []
  · have hroot := Tree.isPresent_of_isDir (Tree.isDir_nil (t := h.tree l.mount.dir.tree))
    have hno : ∀ q, (h.tree l.mount.dir.tree).lookup [] true [] ≠ .ok q :=
      fun q hq => (Tree.lookup_eq_ok.1 hq).1 rfl
    simp only [hnil, hno, hroot, true_and, false_and, or_false, and_true]
  · simp only [hnil, false_and, false_or]
    constructor
    · rintro ⟨hi, hlook, hpres⟩
      obtain rfl := eq_of_lookup hclear.above hl (fun _ => hlink) hlook
      exact ⟨⟨hi, rfl⟩, hpres⟩
    · rintro ⟨⟨hi, rfl⟩, hpres⟩
      exact ⟨hi, lookup_of_present hl hnil hpres fun _ => hlink, hpres⟩

theorem objectAt_walk {W : Except IoError HostPath} (hl : v.locateExact p = .ok l)
    (hW : (h.tree l.mount.dir.tree).walk [] true maxSymlinks [] l.relative = W) :
    objectAt l h = .ok x ↔ W = .ok x.2 ∧ x.1 = l.mount.dir.tree ∧
      (h.tree l.mount.dir.tree).isPresent x.2 = true := by
  rw [objectAt_eq_ok hl]
  by_cases hnil : l.relative = []
  · have hroot := Tree.isPresent_of_isDir (Tree.isDir_nil (t := h.tree l.mount.dir.tree))
    have hno : ∀ q, (h.tree l.mount.dir.tree).lookup [] true [] ≠ .ok q :=
      fun q hq => (Tree.lookup_eq_ok.1 hq).1 rfl
    rw [hnil] at hW ⊢
    obtain rfl : .ok [] = W := hW
    simp only [hno, true_and, false_and, or_false, Except.ok.injEq]
    constructor
    · rintro ⟨hi, hx⟩
      exact ⟨hx.symm, hi, hx ▸ hroot⟩
    · rintro ⟨hx, hi, -⟩
      exact ⟨hi, hx.symm⟩
  · rw [Tree.lookup_eq_ok, hW]
    simp only [hnil, false_and, false_or, ne_eq, not_false_eq_true, no_nul_of_exact hl, true_and]
    exact ⟨fun ⟨hi, hw, hp⟩ => ⟨hw, hi, hp⟩, fun ⟨hw, hi, hp⟩ => ⟨hi, hw, hp⟩⟩

theorem objectAt_error {e : IoError} (hl : v.locateExact p = .ok l)
    (hW : (h.tree l.mount.dir.tree).walk [] true maxSymlinks [] l.relative = .error e) :
    objectAt l h = .error e := by
  have hnil : l.relative ≠ [] := by
    intro hnil
    rw [hnil] at hW
    cases hW
  have hlook : (h.tree l.mount.dir.tree).lookup [] true l.relative = .error e := by
    rw [Tree.lookup, if_neg hnil, if_neg (no_nul_of_exact hl), hW]
  rw [objectAt, if_neg hnil, CapDir.ask, pathOf_root hl]
  dsimp only
  rw [Tree.stat, hlook]
  rfl

theorem oneStep_of_iff (hd : v.locateExact p = .ok d)
    (hsame : ∀ x, objectAt d h = .ok x ↔ v.stepwise p h = .ok x) :
    v.oneStep p h = .ok x ↔ v.stepwise p h = .ok x := by
  rw [oneStep_eq, hd]
  simp only [bind, Except.bind]
  split_ifs
  · rfl
  · cases ho : objectAt d h with
    | ok y =>
      rw [← hsame, ho]
    | error e =>
      dsimp only
      split_ifs
      · rfl
      · rw [← hsame, ho]
        simp

theorem oneStep_of_denied (hd : v.locateExact p = .ok d) {e : IoError}
    (he : objectAt d h = .error e) (hk : e.kind = .permissionDenied) :
    v.oneStep p h = v.stepwise p h := by
  rw [oneStep_eq, hd]
  simp only [bind, Except.bind, he, hk, if_true, ite_self]

/-- **Two routes.** -/
theorem oneRoute_of_direct (hgood : ∀ target ∈ v.targetsOf p true h, ¬ BadTarget target)
    (hdirect : v.Direct h p) : v.OneRoute h p := by
  rw [oneRoute_iff]
  intro x
  cases hd : v.locateExact p with
  | error e =>
    obtain ⟨e', he'⟩ := locate_of_ungoverned (h := h) hd
    rw [oneStep_eq, hd]
    simp [stepwise, he', bind, Except.bind]
  | ok d =>
    by_cases hs : d.mount.shadowsNested = true
    · rw [oneStep_eq, hd]
      simp only [bind, Except.bind, hs, if_true]
    rcases hdirect d hd with hs' | ⟨e, he, hk⟩ | ⟨habove, hspelled, hfirm⟩
    · exact absurd hs' hs
    · rw [oneStep_of_denied hd he hk]
    · have hout := locate_outcome (mem_of_locateExact hd) (by simpa using hs) habove
        (components_of_locateExact hd) hspelled
      generalize hW : (h.tree d.mount.dir.tree).walk [] true maxSymlinkHops [] d.relative = W at hout
      generalize hF : v.locate p true h = F at hout
      have hdirect := fun x => objectAt_walk (x := x) hd hW
      cases hout with
      | same hq =>
        have hclear := (clear_of_spelledWay hspelled hF).2 rfl
        have hstep := fun x => objectAt_clear (x := x) (exact_of_locate hF) hclear
        refine oneStep_of_iff hd fun x => ?_
        rw [hdirect, stepwise, hF]
        simp only [bind, Except.bind, hstep, Except.ok.injEq]
        constructor
        · rintro ⟨rfl, hi, hpres⟩
          exact ⟨Prod.ext hi rfl, hpres⟩
        · rintro ⟨rfl, hpres⟩
          exact ⟨rfl, rfl, hpres⟩
      | refused hbad =>
        obtain ⟨target, ht, hbad⟩ := hbad
        exact absurd hbad (hgood target ht)
      | neither =>
        refine oneStep_of_iff hd fun x => ?_
        rw [hdirect, stepwise, hF]
        simp [bind, Except.bind]
      | absent he hl habsent =>
        have hclear := (clear_of_spelledWay hspelled hF).2 rfl
        refine oneStep_of_iff hd fun x => ?_
        rw [hdirect, stepwise, hF]
        simp [bind, Except.bind, objectAt_clear (exact_of_locate hF) hclear, hl, habsent]
      | loose he hloose => exact absurd (hfirm.symm.trans hloose) (by simp)
      | left hleft =>
        rw [oneStep_of_denied hd (objectAt_error hd hW) rfl]

end Seahaven.Vfs

namespace Seahaven.Vfs

open Host OsStr

section Fixture

attribute [local instance] composed

/-- A file, a link to it, and a link to it by way of a directory that is not there. -/
def goneHost : Host :=
  .ofTrees [.ofEntries [([os "x"], .file), ([os "near"], .link (os "x")),
    ([os "via"], .link (os "gone/../x"))]]

theorem near_oneRoute : workVfs.OneRoute goneHost ⟨[os "work", os "near"], by decide⟩ := by
  refine oneRoute_of_direct ?_ fun d hd => Or.inr (Or.inr ?_)
  · unfold BadTarget Ungrammatical
    decide
  · have hnear : workVfs.locateExact ⟨[os "work", os "near"], by decide⟩ =
        .ok ⟨⟨⟨[os "work"], by decide⟩, ⟨0, 0⟩, none, none, .readWrite, false⟩, [os "near"],
          ⟨[os "work", os "near"], by decide⟩⟩ := by decide
    obtain rfl := Except.ok.inj (hnear.symm.trans hd)
    refine ⟨above_of_one rfl, ?_, by decide⟩
    unfold SpelledWay
    decide

/-- **By way of nothing.** `/work/via` canonicalizes to a file that is there, and there is nothing to
be asked about `/work/via`. -/
theorem via_not_oneRoute : ¬ workVfs.OneRoute goneHost ⟨[os "work", os "via"], by decide⟩ := by
  intro h
  have hwalk : workVfs.stepwise ⟨[os "work", os "via"], by decide⟩ goneHost = .ok (0, [os "x"]) := by
    decide
  have hstep := (h.same (0, [os "x"])).2 hwalk
  exact absurd hstep (by decide)

end Fixture

end Seahaven.Vfs
