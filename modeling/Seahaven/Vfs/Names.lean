import Seahaven.Host.Edits
import Seahaven.Vfs.Fs

/-!
# The namespace by name

`locate` asks the host about one component at a time, by way of the directory it has reached. Here
the same walk is told by the names alone: `linkAt` is the link a virtual path itself stands for, and
`trace` looks it up at every component.

1. As long as links are spelled the way the grammar spells paths, `scan` is `trace`.
2. What `locate` answers has no link above it, and none at it either where it follows the last one.
3. So the host walks the relative path of a location as it stands.
-/

namespace Seahaven.Vfs

open Host OsStr

variable [Unicode]

/-! ## Spelling -/

def Spelled (c : OsStr) : Prop := ∀ d, validateComponent c = .ok d → d = c

instance (c : OsStr) : Decidable (Spelled c) :=
  match h : validateComponent c with
  | .ok d => decidable_of_iff (d = c) (by simp [Spelled, h])
  | .error e => .isTrue (by simp [Spelled, h])

def SpelledLinks (t : Tree) : Prop := t.LinksAre fun _ target => ∀ c ∈ target.components, Spelled c

/-- A component a walk has yet to look up. -/
structure Queued (c : OsStr) : Prop where
  ne_nil : c ≠ []
  no_slash : slash ∉ c
  spelled : Spelled c

theorem IsComponent.isPlain {c : OsStr} (h : IsComponent c) : IsPlain c :=
  ⟨h.ne_nil, h.ne_dot, h.ne_dotdot⟩

theorem IsComponent.queued {c : OsStr} (h : IsComponent c) : Queued c := by
  refine ⟨h.ne_nil, h.no_slash, fun d hd => ?_⟩
  rw [h.validated] at hd
  exact (Except.ok.inj hd).symm

theorem resolve_queued {p q : VirtualPath} {c : OsStr} (hc : Queued c) (h : p.resolve c = .ok q) :
    (c = dot ∧ q = p) ∨ (c = dotdot ∧ p.parent = some q) ∨ ∃ hc, q = p.push c hc := by
  by_cases hdot : c = dot
  · subst hdot
    rw [p.resolve_dot] at h
    exact Or.inl ⟨rfl, (Except.ok.inj h).symm⟩
  by_cases hdotdot : c = dotdot
  · subst hdotdot
    refine Or.inr (Or.inl ⟨rfl, ?_⟩)
    cases hp : p.parent with
    | none =>
      rw [VirtualPath.resolve_dotdot_of_root hp] at h
      cases h
    | some r =>
      rw [VirtualPath.resolve_dotdot_of_parent hp] at h
      rw [Except.ok.inj h]
  · obtain ⟨hnul, hback, d, hd, hq⟩ :=
      (VirtualPath.resolve_name hc.ne_nil hc.no_slash hdot hdotdot).1 h
    obtain rfl := hc.spelled d hd
    exact Or.inr (Or.inr ⟨⟨hc.ne_nil, hc.no_slash, hback, hnul, hd⟩, VirtualPath.ext hq⟩)

/-! ## Links by name -/

def Located.link (l : Located) (h : Host) : Option OsStr :=
  (h.tree l.mount.dir.tree).linkAt l.relative

variable (v : Vfs) (h : Host)

def Spells : Prop := ∀ m ∈ v.table.mounts, SpelledLinks (h.tree m.dir.tree)

def linkAt (p : VirtualPath) : Option OsStr :=
  match v.locateExact p with
  | .ok l => l.link h
  | .error _ => none

/-- No link lies on the way to `p`. -/
def ClearAbove (p : VirtualPath) : Prop :=
  ∀ q : VirtualPath, q.components <+: p.components → q ≠ p → v.linkAt h q = none

/-- No link lies on the way to `p` or at it. -/
def Clear (p : VirtualPath) : Prop :=
  ∀ q : VirtualPath, q.components <+: p.components → v.linkAt h q = none

/-- Looks up pending components one by one, up to the next link to follow. -/
def trace (followFinal : Bool) (resolved : VirtualPath) : List OsStr → Scanned
  | [] => .reached resolved
  | component :: pending =>
    match resolved.resolve component with
    | .error e => .failed (invalidPath e)
    | .ok candidate =>
      match v.locateExact candidate with
      | .error e =>
        if pending ≠ [] ∧ candidate.isRoot = false ∧ v.table.hasMountBelow candidate then
          trace followFinal candidate pending
        else .failed e
      | .ok l =>
        if (l.link h).isSome ∧ (pending ≠ [] ∨ followFinal) then .atLink l pending
        else trace followFinal candidate pending

variable {v h} {p q : VirtualPath} {l : Located}

theorem linkAt_of_exact (hl : v.locateExact p = .ok l) : v.linkAt h p = l.link h := by
  rw [linkAt, hl]

theorem Clear.above (hp : v.Clear h p) : v.ClearAbove h p := fun q hq _ => hp q hq

theorem Clear.mono (hp : v.Clear h p) (hq : q.components <+: p.components) : v.Clear h q :=
  fun r hr => hp r (hr.trans hq)

theorem clear_iff : v.Clear h p ↔ v.ClearAbove h p ∧ v.linkAt h p = none := by
  refine ⟨fun hp => ⟨hp.above, hp p (List.prefix_refl _)⟩, fun ⟨hp, hlast⟩ q hq => ?_⟩
  by_cases hqp : q = p
  · rw [hqp]
    exact hlast
  · exact hp q hq hqp

theorem link_of_relative_nil (hl : l.relative = []) : l.link h = none := by
  rw [Located.link, hl]
  exact Tree.linkAt_of_isDir Tree.isDir_nil

theorem clear_root : v.Clear h .root := by
  intro q hq
  have hnil : q.components = [] := List.prefix_nil.1 hq
  unfold linkAt
  cases hl : v.locateExact q with
  | error e => rfl
  | ok l =>
    have := components_of_locateExact hl
    rw [hnil] at this
    exact link_of_relative_nil (List.append_eq_nil_iff.1 this.symm).2

theorem ClearAbove.push {c : OsStr} {hc : IsComponent c} (hp : v.Clear h p) :
    v.ClearAbove h (p.push c hc) := by
  intro q hq hne
  refine hp q ?_
  rcases List.prefix_concat_iff.1 hq with hq | hq
  · exact absurd (VirtualPath.ext hq) hne
  · exact hq

theorem prefix_of_parent (hq : p.parent = some q) : q.components <+: p.components := by
  unfold VirtualPath.parent at hq
  split_ifs at hq
  obtain rfl := Option.some.inj hq
  exact List.dropLast_prefix _

theorem length_of_parent (hq : p.parent = some q) :
    p.components.length = q.components.length + 1 := by
  unfold VirtualPath.parent at hq
  split_ifs at hq with hroot
  obtain rfl := Option.some.inj hq
  have hne : p.components ≠ [] := by simpa [VirtualPath.isRoot] using hroot
  have := List.length_pos_iff.2 hne
  show _ = p.components.dropLast.length + 1
  rw [List.length_dropLast]
  omega

/-! ### Locations above one another -/

theorem isComponent_of_exact (hl : v.locateExact p = .ok l) {c : OsStr} (hc : c ∈ l.relative) :
    IsComponent c :=
  p.valid c (components_of_locateExact hl ▸ List.mem_append_right _ hc)

variable {r : List OsStr}

theorem exact_above (hl : v.locateExact p = .ok l) (hr : r <+: l.relative)
    (hq : q.components = l.mount.at.components ++ r) : v.locateExact q = .ok ⟨l.mount, r, q⟩ := by
  have hres := MountTable.resolve_eq_some.1 (locateExact_eq_ok.1 hl).1
  refine locateExact_eq_ok.2 ⟨MountTable.resolve_eq_some.2 ⟨hres.1, hq, fun m' hm' hpre => ?_⟩, rfl⟩
  refine hres.2.2 m' hm' (hpre.trans ?_)
  rw [hq, hres.2.1]
  exact (List.prefix_append_right_inj _).2 hr

theorem ClearAbove.link_above (hp : v.ClearAbove h p) (hl : v.locateExact p = .ok l)
    (hr : r <+: l.relative) (hne : r ≠ l.relative) :
    (h.tree l.mount.dir.tree).linkAt r = none := by
  have hcomp := components_of_locateExact hl
  let q : VirtualPath := ⟨l.mount.at.components ++ r, fun c hc => p.valid c (by
    rw [hcomp]
    exact ((List.prefix_append_right_inj _).2 hr).subset hc)⟩
  have hq : v.linkAt h q = none := by
    refine hp q ?_ fun hqp => hne ?_
    · rw [hcomp]
      exact (List.prefix_append_right_inj _).2 hr
    · have := congrArg VirtualPath.components hqp
      rw [hcomp] at this
      exact List.append_cancel_left this
  rwa [linkAt_of_exact (exact_above hl hr rfl)] at hq

/-! ### The host's walk to a location -/

theorem no_nul_of_exact (hl : v.locateExact p = .ok l) :
    ¬ ∃ c ∈ l.relative, OsChar.chr '\x00' ∈ c :=
  fun ⟨_, hc, hnul⟩ => (isComponent_of_exact hl hc).no_nul hnul

/-- **As it stands.** Where no link is on the way, the host's walk leads nowhere else. -/
theorem eq_of_lookup {follow : Bool} {r : HostPath} (hp : v.ClearAbove h p)
    (hl : v.locateExact p = .ok l) (hlast : follow = true → l.link h = none)
    (hr : (h.tree l.mount.dir.tree).lookup [] follow l.relative = .ok r) : r = l.relative := by
  obtain ⟨-, -, hr⟩ := Tree.lookup_eq_ok.1 hr
  refine Tree.walk_clear (fun c hc => (isComponent_of_exact hl hc).isPlain) ?_ hr
  intro q hq _ hne
  by_cases hqs : q = l.relative
  · rw [hqs]
    exact hlast (hne.resolve_left fun h => h hqs)
  · exact hp.link_above hl hq hqs

theorem lookup_of_present {follow : Bool} (hl : v.locateExact p = .ok l)
    (hne : l.relative ≠ []) (hpres : (h.tree l.mount.dir.tree).isPresent l.relative = true)
    (hlast : follow = true → l.link h = none) :
    (h.tree l.mount.dir.tree).lookup [] follow l.relative = .ok l.relative := by
  refine Tree.lookup_eq_ok.2 ⟨hne, no_nul_of_exact hl, ?_⟩
  exact Tree.walk_present (fun c hc => (isComponent_of_exact hl hc).isPlain) hpres hlast

theorem lookup_of_link {target : OsStr} (hl : v.locateExact p = .ok l)
    (hlink : l.link h = some target) :
    (h.tree l.mount.dir.tree).lookup [] false l.relative = .ok l.relative := by
  refine lookup_of_present hl (fun hnil => ?_) (Tree.isPresent_of_linkAt hlink) (by simp)
  rw [link_of_relative_nil hnil] at hlink
  cases hlink

/-! ## The cursor -/

omit [Unicode] in
theorem isLink_iff {d : CapDir} {rel : List OsStr} : isLink (d.symlinkMetadata rel h) = true ↔
    ∃ root r target, (h.tree d.tree).pathOf d.ino = some root ∧
      (h.tree d.tree).lookup root false rel = .ok r ∧
      (h.tree d.tree).linkAt r = some target := by
  constructor
  · intro hlink
    cases hm : d.symlinkMetadata rel h with
    | error e =>
      rw [hm] at hlink
      cases hlink
    | ok m =>
      rw [hm] at hlink
      obtain ⟨target, hk⟩ := Metadata.isSymlink_iff.1 hlink
      obtain ⟨root, r, n, hroot, hr, hn, rfl⟩ := CapDir.statWith_eq_ok.1 hm
      refine ⟨root, r, target, hroot, hr, Tree.linkAt_eq_some.2 ⟨n.ino, ?_⟩⟩
      rw [hn, ← hk]
  · rintro ⟨root, r, target, hroot, hr, hlink⟩
    obtain ⟨i, hn⟩ := Tree.linkAt_eq_some.1 hlink
    have hm : d.symlinkMetadata rel h = .ok ⟨d.tree, i, .link target, (h.tree d.tree).attr i⟩ :=
      CapDir.statWith_eq_ok.2 ⟨root, r, _, hroot, hr, hn, rfl⟩
    rw [hm]
    rfl

theorem pathOf_root (hl : v.locateExact p = .ok l) :
    (h.tree l.mount.dir.tree).pathOf l.mount.dir.ino = some [] := by
  rw [v.roots l.mount (mem_of_locateExact hl)]
  exact Tree.pathOf_zero

theorem isLink_path (hp : v.ClearAbove h p) (hl : v.locateExact p = .ok l) :
    isLink (l.mount.dir.symlinkMetadata l.relative h) = (l.link h).isSome := by
  rw [Bool.eq_iff_iff, isLink_iff, Option.isSome_iff_exists]
  constructor
  · rintro ⟨root, r, target, hroot, hr, hlink⟩
    obtain rfl := Option.some.inj (hroot.symm.trans (pathOf_root hl))
    obtain rfl := eq_of_lookup hp hl (by simp) hr
    exact ⟨target, hlink⟩
  · rintro ⟨target, hlink⟩
    exact ⟨[], l.relative, target, pathOf_root hl, lookup_of_link hl hlink, hlink⟩

variable (v h) in
/-- The cursor is on the directory `p` names. -/
def CursorOn (cursor : Option (Mount × CapDir)) (p : VirtualPath) : Prop :=
  ∀ m d, cursor = some (m, d) → ∃ r, v.locateExact p = .ok ⟨m, r, p⟩ ∧ d.tree = m.dir.tree ∧
    (h.tree d.tree).pathOf d.ino = some r

variable {cursor : Option (Mount × CapDir)} {c : OsStr}

theorem cursorOn_none : v.CursorOn h none p := fun _ _ h => by cases h

theorem CursorOn.descent (hcur : v.CursorOn h cursor p) (hl : v.locateExact q = .ok l) {d : CapDir}
    (hd : descent cursor l.mount = some d) : ∃ r, v.locateExact p = .ok ⟨l.mount, r, p⟩ ∧
      d.tree = l.mount.dir.tree ∧ (h.tree d.tree).pathOf d.ino = some r := by
  unfold Vfs.descent at hd
  obtain ⟨⟨m, d'⟩, hf, rfl⟩ := Option.map_eq_some_iff.1 hd
  obtain ⟨hm, hat⟩ := Option.filter_eq_some_iff.1 hf
  obtain ⟨r, hr, hdir⟩ := hcur m d' hm
  obtain rfl := MountTable.eq_of_at_eq (mem_of_locateExact hr) (mem_of_locateExact hl)
    (by simpa using hat)
  exact ⟨r, hr, hdir⟩

theorem virtualPath_of_exact (hl : v.locateExact p = .ok l) : l = ⟨l.mount, l.relative, p⟩ := by
  obtain ⟨m, rel, q⟩ := l
  obtain rfl := (locateExact_eq_ok.1 hl).2
  rfl

theorem relative_push {hc : IsComponent c}
    (hp : v.locateExact p = .ok ⟨l.mount, r, p⟩) (hl : v.locateExact (p.push c hc) = .ok l) :
    l.relative = r ++ [c] := by
  have h₁ := components_of_locateExact hp
  have h₂ := components_of_locateExact hl
  rw [VirtualPath.components_push, h₁, List.append_assoc] at h₂
  exact (List.append_cancel_left h₂).symm

theorem above_of_resolve (hc : Queued c) (hp : v.Clear h p) (hq : p.resolve c = .ok q) :
    v.ClearAbove h q := by
  obtain ⟨-, rfl⟩ | ⟨-, hup⟩ | ⟨hcomp, rfl⟩ := resolve_queued hc hq
  · exact hp.above
  · exact (hp.mono (prefix_of_parent hup)).above
  · exact ClearAbove.push hp

/-- **A probe tells links.** Asked by name or by path, the answer is what the name stands for. -/
theorem isLink_probe (hc : Queued c) (hp : v.Clear h p) (hq : p.resolve c = .ok q)
    (hl : v.locateExact q = .ok l) (hcur : v.CursorOn h cursor p) :
    isLink (probe h (descent cursor l.mount) c l) = (l.link h).isSome := by
  cases hd : descent cursor l.mount with
  | none => exact isLink_path (above_of_resolve hc hp hq) hl
  | some d =>
    obtain ⟨r, hr, htree, hroot⟩ := hcur.descent hl hd
    show isLink (d.symlinkMetadata [c] h) = _
    rw [Bool.eq_iff_iff, isLink_iff, Option.isSome_iff_exists]
    have hdir : (h.tree d.tree).isDir r = true := Tree.isDir_iff.2 ⟨_, Tree.pathOf_eq_some.1 hroot⟩
    have hclear : q.components <+: p.components → l.link h = none := fun hpre => by
      rw [← linkAt_of_exact hl]
      exact hp q hpre
    rcases resolve_queued hc hq with ⟨rfl, rfl⟩ | ⟨rfl, hup⟩ | ⟨hcomp, rfl⟩
    · rw [hclear (List.prefix_refl _)]
      refine iff_of_false ?_ (by simp)
      rintro ⟨root, r', target, hroot', hr', hlink⟩
      obtain rfl := Option.some.inj (hroot.symm.trans hroot')
      rw [Tree.lookup_dot] at hr'
      obtain rfl := Except.ok.inj hr'
      rw [Tree.linkAt_of_isDir hdir] at hlink
      cases hlink
    · rw [hclear (prefix_of_parent hup)]
      refine iff_of_false ?_ (by simp)
      rintro ⟨root, r', target, hroot', hr', hlink⟩
      obtain rfl := Option.some.inj (hroot.symm.trans hroot')
      rw [Tree.lookup_dotdot] at hr'
      cases hr'
    · have hname : (h.tree d.tree).lookup r false [c] = .ok (r ++ [c]) := by
        exact Tree.lookup_eq_ok.2
          ⟨by simp, by simpa using hcomp.no_nul, Tree.walk_name hcomp.isPlain⟩
      rw [Located.link, relative_push hr hl, ← htree]
      constructor
      · rintro ⟨root, r', target, hroot', hr', hlink⟩
        obtain rfl := Option.some.inj (hroot.symm.trans hroot')
        rw [hname] at hr'
        obtain rfl := Except.ok.inj hr'
        exact ⟨target, hlink⟩
      · rintro ⟨target, hlink⟩
        exact ⟨r, r ++ [c], target, hroot, hname, hlink⟩

theorem cursorOn_advance (hc : Queued c) (hp : v.Clear h p) (hq : p.resolve c = .ok q)
    (hl : v.locateExact q = .ok l) (hcur : v.CursorOn h cursor p) (hlink : l.link h = none) :
    v.CursorOn h (advance h (descent cursor l.mount) c l) q := by
  intro m d' hadv
  unfold advance at hadv
  obtain ⟨d₁, hd₁, heq⟩ := Option.map_eq_some_iff.1 hadv
  obtain ⟨rfl, rfl⟩ := Prod.mk.inj heq
  have hexact : v.locateExact q = .ok ⟨l.mount, l.relative, q⟩ := by
    rw [hl]
    exact congrArg _ (virtualPath_of_exact hl)
  refine ⟨l.relative, hexact, ?_⟩
  cases hd : descent cursor l.mount with
  | none =>
    rw [hd] at hd₁
    obtain ⟨root, r, i, hroot, hr, hn, rfl⟩ :=
      CapDir.openDir_eq_ok.1 (Op.toOption_eq_some.1 hd₁)
    obtain rfl := Option.some.inj (hroot.symm.trans (pathOf_root hl))
    obtain rfl := eq_of_lookup (above_of_resolve hc hp hq) hl (fun _ => hlink) hr
    exact ⟨rfl, Tree.pathOf_eq_some.2 hn⟩
  | some d =>
    rw [hd] at hd₁
    obtain ⟨r, hr, htree, hroot⟩ := hcur.descent hl hd
    obtain ⟨root, r', i, hroot', hr', hn, rfl⟩ :=
      CapDir.openDir_eq_ok.1 (Op.toOption_eq_some.1 hd₁)
    obtain rfl := Option.some.inj (hroot.symm.trans hroot')
    refine ⟨htree, Tree.pathOf_eq_some.2 ?_⟩
    rcases resolve_queued hc hq with ⟨rfl, rfl⟩ | ⟨rfl, hup⟩ | ⟨hcomp, rfl⟩
    · rw [Tree.lookup_dot] at hr'
      obtain rfl := Except.ok.inj hr'
      have hrel : l.relative = r := congrArg Located.relative (Except.ok.inj (hl.symm.trans hr))
      rw [hrel]
      exact hn
    · rw [Tree.lookup_dotdot] at hr'
      cases hr'
    · rw [relative_push hr hl]
      obtain rfl : r' = r ++ [c] := by
        obtain ⟨-, -, hr'⟩ := Tree.lookup_eq_ok.1 hr'
        refine Tree.walk_clear (by simpa using hcomp.isPlain) (fun s hs hne _ => ?_) hr'
        obtain rfl : s = [c] := by
          rcases List.prefix_cons_iff.1 hs with hs | ⟨s', rfl, hs'⟩
          · exact absurd hs hne
          · rw [List.prefix_nil.1 hs']
        rwa [Located.link, relative_push hr hl, ← htree] at hlink
      exact hn

/-! ## The walk by name -/

section Trace

variable {followFinal : Bool} {pending : List OsStr}

theorem clear_of_error {e : IoError} (hq : v.ClearAbove h q) (he : v.locateExact q = .error e) :
    v.Clear h q := clear_iff.2 ⟨hq, by rw [linkAt, he]⟩

theorem clear_of_link (hq : v.ClearAbove h q) (hl : v.locateExact q = .ok l)
    (hlink : l.link h = none) : v.Clear h q :=
  clear_iff.2 ⟨hq, (linkAt_of_exact hl).trans hlink⟩

/-- **The cursor is not needed.** Where links are spelled the way the grammar spells paths, what a
scan looks up is what the names stand for. -/
theorem scan_eq_trace (hpend : ∀ c ∈ pending, Queued c) (hp : v.Clear h p)
    (hcur : v.CursorOn h cursor p) :
    v.scan h followFinal cursor p pending = v.trace h followFinal p pending := by
  induction pending generalizing cursor p with
  | nil => rfl
  | cons c pending ih =>
    have hc := hpend c List.mem_cons_self
    have hrest := fun d hd => hpend d (List.mem_cons_of_mem _ hd)
    rw [scan, trace]
    cases hq : p.resolve c with
    | error e => rfl
    | ok q =>
      have habove := above_of_resolve hc hp hq
      dsimp only
      cases hl : v.locateExact q with
      | error e =>
        dsimp only
        split_ifs
        · exact ih hrest (clear_of_error habove hl) cursorOn_none
        · rfl
      | ok l =>
        dsimp only
        rw [isLink_probe hc hp hq hl hcur]
        by_cases hstop : (l.link h).isSome = true ∧ (pending ≠ [] ∨ followFinal = true)
        · rw [if_pos hstop, if_pos hstop]
        · rw [if_neg hstop, if_neg hstop]
          by_cases hnil : pending = []
          · subst hnil
            rfl
          · have hlink : l.link h = none := by
              by_contra hne
              exact hstop ⟨Option.isSome_iff_ne_none.2 hne, Or.inl hnil⟩
            rw [if_neg hnil]
            exact ih hrest (clear_of_link habove hl hlink)
              (cursorOn_advance hc hp hq hl hcur hlink)

section Step

variable {target : OsStr}

theorem trace_through {e : IoError} (hq : p.resolve c = .ok q) (hl : v.locateExact q = .error e)
    (hshape : pending ≠ [] ∧ q.isRoot = false ∧ v.table.hasMountBelow q = true) :
    v.trace h followFinal p (c :: pending) = v.trace h followFinal q pending := by
  rw [trace, hq]
  dsimp only
  rw [hl]
  dsimp only
  rw [if_pos hshape]

theorem trace_step (hq : p.resolve c = .ok q) (hl : v.locateExact q = .ok l)
    (hlink : l.link h = none) :
    v.trace h followFinal p (c :: pending) = v.trace h followFinal q pending := by
  rw [trace, hq]
  dsimp only
  rw [hl]
  dsimp only
  rw [if_neg (by simp [hlink])]

theorem trace_link (hq : p.resolve c = .ok q) (hl : v.locateExact q = .ok l)
    (hlink : l.link h = some target) (hlast : pending ≠ [] ∨ followFinal = true) :
    v.trace h followFinal p (c :: pending) = .atLink l pending := by
  rw [trace, hq]
  dsimp only
  rw [hl]
  dsimp only
  rw [if_pos ⟨by simp [hlink], hlast⟩]

/-- **What a walk does.** At a component it comes to a link that is to be followed, or goes on from
where the component leads: to a mount below, to no link, or to a last link that is not followed. -/
theorem trace_cons {s : Scanned} (hs : v.trace h followFinal p (c :: pending) = s)
    (hok : ∀ e, s ≠ .failed e) :
    ∃ q, p.resolve c = .ok q ∧
      ((∃ l target, v.locateExact q = .ok l ∧ l.link h = some target ∧
          (pending ≠ [] ∨ followFinal = true) ∧ s = .atLink l pending) ∨
        v.trace h followFinal q pending = s ∧
          ((∃ e, v.locateExact q = .error e ∧
              pending ≠ [] ∧ q.isRoot = false ∧ v.table.hasMountBelow q = true) ∨
            ∃ l, v.locateExact q = .ok l ∧ (l.link h = none ∨
              (∃ target, l.link h = some target) ∧ pending = [] ∧ followFinal = false))) := by
  cases hq : p.resolve c with
  | error e =>
    rw [trace, hq] at hs
    exact absurd hs.symm (hok _)
  | ok q =>
    refine ⟨q, rfl, ?_⟩
    cases hl : v.locateExact q with
    | error e =>
      rw [trace, hq] at hs
      dsimp only at hs
      rw [hl] at hs
      dsimp only at hs
      split_ifs at hs with hshape
      · exact .inr ⟨hs, .inl ⟨e, rfl, hshape⟩⟩
      · exact absurd hs.symm (hok e)
    | ok l =>
      cases hlink : l.link h with
      | none => exact .inr ⟨(trace_step hq hl hlink).symm.trans hs, .inr ⟨l, rfl, .inl hlink⟩⟩
      | some target =>
        by_cases hlast : pending ≠ [] ∨ followFinal = true
        · exact .inl ⟨l, target, rfl, hlink, hlast,
            hs.symm.trans (trace_link hq hl hlink hlast)⟩
        · obtain ⟨hnil, hfinal⟩ := not_or.1 hlast
          obtain rfl := not_not.1 hnil
          rw [Bool.not_eq_true] at hfinal
          subst hfinal
          refine .inr ⟨?_, .inr ⟨l, rfl, .inr ⟨⟨target, hlink⟩, rfl, rfl⟩⟩⟩
          rw [← hs, trace, trace, hq]
          dsimp only
          rw [hl]
          dsimp only
          rw [if_neg (by simp), trace]

end Step

theorem trace_reached {r : VirtualPath} (hpend : ∀ c ∈ pending, Queued c) (hp : v.Clear h p)
    (hr : v.trace h followFinal p pending = .reached r) :
    v.ClearAbove h r ∧ (followFinal = true → v.Clear h r) := by
  induction pending generalizing p with
  | nil =>
    obtain rfl : p = r := Scanned.reached.inj hr
    exact ⟨hp.above, fun _ => hp⟩
  | cons c pending ih =>
    have hc := hpend c List.mem_cons_self
    have hrest := fun d hd => hpend d (List.mem_cons_of_mem _ hd)
    obtain ⟨q, hq, ⟨l, target, -, -, -, hs⟩ | ⟨hr, hnext⟩⟩ := trace_cons hr nofun
    · cases hs
    have habove := above_of_resolve hc hp hq
    obtain ⟨e, hl, -⟩ | ⟨l, hl, hlink | ⟨-, rfl, rfl⟩⟩ := hnext
    · exact ih hrest (clear_of_error habove hl) hr
    · exact ih hrest (clear_of_link habove hl hlink) hr
    · -- a link the walk steps over is the last component
      obtain rfl : q = r := Scanned.reached.inj hr
      exact ⟨habove, nofun⟩

theorem trace_atLink {rest : List OsStr} (hpend : ∀ c ∈ pending, Queued c) (hp : v.Clear h p)
    (hr : v.trace h followFinal p pending = .atLink l rest) :
    v.locateExact l.virtualPath = .ok l ∧ v.ClearAbove h l.virtualPath ∧
      (∃ target, l.link h = some target) ∧ ∀ c ∈ rest, Queued c := by
  induction pending generalizing p with
  | nil => cases hr
  | cons c pending ih =>
    have hc := hpend c List.mem_cons_self
    have hrest := fun d hd => hpend d (List.mem_cons_of_mem _ hd)
    obtain ⟨q, hq, ⟨l', target, hl, hlink, -, hs⟩ | ⟨hr, hnext⟩⟩ := trace_cons hr nofun
    · obtain ⟨rfl, rfl⟩ := Scanned.atLink.inj hs
      obtain rfl : l.virtualPath = q := (locateExact_eq_ok.1 hl).2
      exact ⟨hl, above_of_resolve hc hp hq, ⟨target, hlink⟩, hrest⟩
    have habove := above_of_resolve hc hp hq
    obtain ⟨e, hl, -⟩ | ⟨l', hl, hlink | ⟨-, rfl, rfl⟩⟩ := hnext
    · exact ih hrest (clear_of_error habove hl) hr
    · exact ih hrest (clear_of_link habove hl hlink) hr
    · cases hr

end Trace

/-! ## The links a walk follows -/

theorem readLinkContents_of_link {target : OsStr} (hl : v.locateExact p = .ok l)
    (hlink : l.link h = some target) :
    l.mount.dir.readLinkContents l.relative h = .ok target := by
  obtain ⟨i, hn⟩ := Tree.linkAt_eq_some.1 hlink
  refine CapDir.ask_eq_ok.2 ⟨[], pathOf_root hl, ?_⟩
  rw [Tree.readLink, Tree.stat_eq_ok.2 ⟨lookup_of_link hl hlink, hn⟩]

variable {path : VirtualPath}

theorem linkTarget_eq {target : OsStr} (hl : v.locateExact p = .ok l)
    (hlink : l.link h = some target) :
    linkTarget h path l = if target.isUtf8 then .ok target
      else .error (.custom .invalidData
        (os "symlink target is not valid UTF-8: " ++ path.asStr)) := by
  rw [linkTarget, readLinkContents_of_link hl hlink]

theorem clear_linkBase {target : OsStr} (hp : v.ClearAbove h l.virtualPath) :
    v.Clear h (linkBase l target) := by
  unfold linkBase
  split_ifs
  · exact clear_root
  · cases hup : l.virtualPath.parent with
    | none => exact clear_root
    | some q =>
      intro r hr
      refine hp r (hr.trans (prefix_of_parent hup)) fun heq => ?_
      subst heq
      have hlen := hr.length_le
      have := length_of_parent hup
      show False
      simp only [Option.getD_some] at hlen
      omega

variable (v h) in
/-- What the links hold that `follow` follows, in the order it comes to them. -/
def targets (followFinal : Bool) : Nat → VirtualPath → List OsStr → List OsStr
  | 0, _, _ => []
  | hops + 1, resolved, pending =>
    match v.scan h followFinal none resolved pending with
    | .atLink located pending =>
      match located.mount.dir.readLinkContents located.relative h with
      | .ok target =>
        target :: targets followFinal hops (linkBase located target) (target.components ++ pending)
      | .error _ => []
    | _ => []

def targetsOf (v : Vfs) (p : VirtualPath) (followFinal : Bool) (h : Host) : List OsStr :=
  v.targets h followFinal maxSymlinkHops .root p.components

def SpelledWay (v : Vfs) (h : Host) (p : VirtualPath) (followFinal : Bool) : Prop :=
  ∀ target ∈ v.targetsOf p followFinal h, ∀ c ∈ target.components, Spelled c

section Way

variable {followFinal : Bool} {hops : Nat} {pending rest : List OsStr} {target : OsStr}

theorem targets_atLink (hops : Nat) (hscan : v.scan h followFinal none p pending = .atLink l rest)
    (hl : v.locateExact q = .ok l) (hlink : l.link h = some target) :
    v.targets h followFinal (hops + 1) p pending =
      target :: v.targets h followFinal hops (linkBase l target) (target.components ++ rest) := by
  rw [targets, hscan]
  dsimp only
  rw [readLinkContents_of_link hl hlink]

theorem queued_target (hs : ∀ c ∈ target.components, Spelled c) :
    ∀ c ∈ target.components, Queued c := fun c hc =>
  ⟨components_ne_nil hc, slash_not_mem_of_mem_components hc, hs c hc⟩

/-- **Where a walk leads.** What `follow` answers has no link above it, and none at it where the
final link is followed. -/
theorem clear_of_follow
    (hs : ∀ t ∈ v.targets h followFinal hops p pending, ∀ c ∈ t.components, Spelled c)
    (hpend : ∀ c ∈ pending, Queued c) (hp : v.Clear h p)
    (hl : v.follow h path followFinal hops p pending = .ok l) :
    v.ClearAbove h l.virtualPath ∧ (followFinal = true → v.Clear h l.virtualPath) := by
  induction hops generalizing p pending with
  | zero =>
    cases hscan : v.scan h followFinal none p pending with
    | reached r =>
      rw [follow_reached hscan] at hl
      rw [(locateExact_eq_ok.1 hl).2]
      exact trace_reached hpend hp ((scan_eq_trace hpend hp cursorOn_none).symm.trans hscan)
    | failed e =>
      rw [follow_failed hscan] at hl
      cases hl
    | atLink l' rest =>
      rw [follow_atLink_zero hscan] at hl
      cases hl
  | succ hops ih =>
    cases hscan : v.scan h followFinal none p pending with
    | reached r =>
      rw [follow_reached hscan] at hl
      rw [(locateExact_eq_ok.1 hl).2]
      exact trace_reached hpend hp ((scan_eq_trace hpend hp cursorOn_none).symm.trans hscan)
    | failed e =>
      rw [follow_failed hscan] at hl
      cases hl
    | atLink l' rest =>
      obtain ⟨hl', habove, ⟨target, hlink⟩, hrest⟩ :=
        trace_atLink hpend hp ((scan_eq_trace hpend hp cursorOn_none).symm.trans hscan)
      rw [targets_atLink hops hscan hl' hlink] at hs
      obtain ⟨htarget, hs⟩ := List.forall_mem_cons.1 hs
      rw [follow_atLink_succ hscan, linkTarget_eq hl' hlink] at hl
      by_cases hutf : target.isUtf8 = true
      · rw [if_pos hutf] at hl
        refine ih hs (fun c hc => ?_) (clear_linkBase habove) hl
        rcases List.mem_append.1 hc with hc | hc
        · exact queued_target htarget c hc
        · exact hrest c hc
      · rw [if_neg hutf] at hl
        cases hl

theorem spelled_targets (hs : v.Spells h) (hpend : ∀ c ∈ pending, Queued c) (hp : v.Clear h p) :
    ∀ t ∈ v.targets h followFinal hops p pending, ∀ c ∈ t.components, Spelled c := by
  induction hops generalizing p pending with
  | zero => intro t ht; cases ht
  | succ hops ih =>
    cases hscan : v.scan h followFinal none p pending with
    | reached r =>
      rw [targets, hscan]
      intro t ht
      cases ht
    | failed e =>
      rw [targets, hscan]
      intro t ht
      cases ht
    | atLink l' rest =>
      obtain ⟨hl', habove, ⟨target, hlink⟩, hrest⟩ :=
        trace_atLink hpend hp ((scan_eq_trace hpend hp cursorOn_none).symm.trans hscan)
      have htarget : ∀ c ∈ target.components, Spelled c :=
        hs l'.mount (mem_of_locateExact hl') _ target hlink
      rw [targets_atLink hops hscan hl' hlink]
      refine List.forall_mem_cons.2 ⟨htarget, ih (fun c hc => ?_) (clear_linkBase habove)⟩
      rcases List.mem_append.1 hc with hc | hc
      · exact queued_target htarget c hc
      · exact hrest c hc

theorem clear_of_spelledWay (hs : v.SpelledWay h path followFinal)
    (hl : v.locate path followFinal h = .ok l) :
    v.ClearAbove h l.virtualPath ∧ (followFinal = true → v.Clear h l.virtualPath) :=
  clear_of_follow hs (fun c hc => (path.valid c hc).queued) clear_root hl

theorem clear_of_locate (hs : v.Spells h)
    (hl : v.locate path followFinal h = .ok l) :
    v.ClearAbove h l.virtualPath ∧ (followFinal = true → v.Clear h l.virtualPath) :=
  clear_of_spelledWay (spelled_targets hs (fun c hc => (path.valid c hc).queued) clear_root) hl

end Way

end Seahaven.Vfs
