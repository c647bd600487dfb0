import Seahaven.Vfs.Names

/-!
# The loop of `locate`

`Vfs.locate` as the program has it: one loop over a stack of pending components, which a link
that is followed pushes its target back on. `carry` says whether the walk keeps its directory
handle from one component to the next.

1. `turn`: one turn of the loop. Each turn follows a link or uses up a component.
2. `walkLoop`: the loop, which comes to an end, and `walkLoop_eq_locate`: it is `locate`.
3. `met_le`, `met_of_loop`: how many links a walk meets.
4. `canonicalize_settles`: what `canonicalize` answers is its own canonical path.
-/

namespace Seahaven.Vfs

open Host OsStr

variable [Unicode]

/-- The state of the loop: what has been resolved, the components on the stack, the links followed,
and the directory `resolved` names with the mount it was opened from. -/
structure Loop where
  resolved : VirtualPath
  pending : List OsStr
  hops : Nat
  cursor : Option (Mount × CapDir)

/-- What a turn of the loop ends in: another turn, or the end of the walk after so many links. -/
inductive Turn
  | next (s : Loop)
  | done (met : Nat) (r : Except IoError Located)

def loopError (path : VirtualPath) : IoError :=
  .custom .other (symlinkLoopMessage ++ os ": " ++ path.asStr)

def Loop.start (path : VirtualPath) : Loop := ⟨.root, path.components, 0, none⟩

variable (v : Vfs) (carry : Bool) (h : Host) (path : VirtualPath) (followFinal : Bool)

/-- One turn of the loop. -/
def turn (s : Loop) : Turn :=
  match s.pending with
  | [] => .done s.hops (v.locateExact s.resolved)
  | component :: pending =>
    match s.resolved.resolve component with
    | .error e => .done s.hops (.error (invalidPath e))
    | .ok candidate =>
      match v.locateExact candidate with
      | .error e =>
        if pending ≠ [] ∧ candidate.isRoot = false ∧ v.table.hasMountBelow candidate then
          .next ⟨candidate, pending, s.hops, none⟩
        else .done s.hops (.error e)
      | .ok l =>
        let dir := descent s.cursor l.mount
        if isLink (probe h dir component l) ∧ (pending ≠ [] ∨ followFinal) then
          if maxSymlinkHops < s.hops + 1 then .done (s.hops + 1) (.error (loopError path))
          else
            match linkTarget h path l with
            | .error e => .done (s.hops + 1) (.error e)
            | .ok target =>
              .next ⟨linkBase l target, target.components ++ pending, s.hops + 1, none⟩
        else
          .next ⟨candidate, pending, s.hops,
            if pending = [] ∨ carry = false then none else advance h dir component l⟩

def Loop.measure (s : Loop) : Nat × Nat := (maxSymlinkHops - s.hops, s.pending.length)

variable {v carry h path followFinal}

variable {s s' : Loop}

/-- **What a turn does.** It takes a component that leads to a mount below, to the target of a link,
or past what is to be followed no further. -/
theorem turn_next (ht : v.turn carry h path followFinal s = .next s') :
    ∃ c pending q, s.pending = c :: pending ∧ s.resolved.resolve c = .ok q ∧
      ((∃ e, v.locateExact q = .error e ∧ s' = ⟨q, pending, s.hops, none⟩) ∨
        ∃ l, v.locateExact q = .ok l ∧
          ((∃ target, isLink (probe h (descent s.cursor l.mount) c l) = true ∧
              s.hops < maxSymlinkHops ∧ linkTarget h path l = .ok target ∧
              s' = ⟨linkBase l target, target.components ++ pending, s.hops + 1, none⟩) ∨
            ¬(isLink (probe h (descent s.cursor l.mount) c l) = true ∧
                (pending ≠ [] ∨ followFinal = true)) ∧
              s' = ⟨q, pending, s.hops, if pending = [] ∨ carry = false then none
                else advance h (descent s.cursor l.mount) c l⟩)) := by
  unfold turn at ht
  cases hp : s.pending with
  | nil => rw [hp] at ht; cases ht
  | cons c pending =>
    rw [hp] at ht
    dsimp only at ht
    cases hq : s.resolved.resolve c with
    | error e => rw [hq] at ht; cases ht
    | ok q =>
      refine ⟨c, pending, q, rfl, hq, ?_⟩
      rw [hq] at ht
      dsimp only at ht
      cases hl : v.locateExact q with
      | error e =>
        rw [hl] at ht
        dsimp only at ht
        split_ifs at ht
        exact .inl ⟨e, rfl, (Turn.next.inj ht).symm⟩
      | ok l =>
        refine .inr ⟨l, rfl, ?_⟩
        rw [hl] at ht
        dsimp only at ht
        by_cases hstop : isLink (probe h (descent s.cursor l.mount) c l) = true ∧
            (pending ≠ [] ∨ followFinal = true)
        · rw [if_pos hstop] at ht
          split_ifs at ht with hhops
          cases htarget : linkTarget h path l with
          | error e => rw [htarget] at ht; cases ht
          | ok target =>
            rw [htarget] at ht
            exact .inl ⟨target, hstop.1, by omega, rfl, (Turn.next.inj ht).symm⟩
        · rw [if_neg hstop] at ht
          exact .inr ⟨hstop, (Turn.next.inj ht).symm⟩

/-- **Progress.** A turn that is not the last follows one of the links left, or uses up a
component. -/
theorem turn_progress (ht : v.turn carry h path followFinal s = .next s') :
    (s.hops < maxSymlinkHops ∧ s'.hops = s.hops + 1) ∨
      (s'.hops = s.hops ∧ s'.pending.length < s.pending.length) := by
  obtain ⟨c, pending, q, hp, -, ⟨e, -, rfl⟩ | ⟨l, -, ⟨target, -, hhops, -, rfl⟩ | ⟨-, rfl⟩⟩⟩ :=
    turn_next ht
  · exact .inr ⟨rfl, by rw [hp]; exact Nat.lt_succ_self _⟩
  · exact .inl ⟨hhops, rfl⟩
  · exact .inr ⟨rfl, by rw [hp]; exact Nat.lt_succ_self _⟩

theorem measure_lt (ht : v.turn carry h path followFinal s = .next s') :
    Prod.Lex (· < ·) (· < ·) s'.measure s.measure := by
  unfold Loop.measure
  rcases turn_progress ht with ⟨hlt, heq⟩ | ⟨heq, hlt⟩
  · exact Prod.Lex.left _ _ (by omega)
  · rw [heq]
    exact Prod.Lex.right _ hlt

variable (v carry h path followFinal) in
def walkLoop (s : Loop) : Nat × Except IoError Located :=
  match _ht : v.turn carry h path followFinal s with
  | .done met r => (met, r)
  | .next s' => walkLoop s'
termination_by s.measure
decreasing_by exact measure_lt _ht

theorem walkLoop_done {met : Nat} {r : Except IoError Located}
    (ht : v.turn carry h path followFinal s = .done met r) :
    v.walkLoop carry h path followFinal s = (met, r) := by
  rw [walkLoop]
  split
  · rename_i met' r' ht'
    rw [ht] at ht'
    cases ht'
    rfl
  · rename_i s' ht'
    rw [ht] at ht'
    cases ht'

theorem walkLoop_next (ht : v.turn carry h path followFinal s = .next s') :
    v.walkLoop carry h path followFinal s = v.walkLoop carry h path followFinal s' := by
  rw [walkLoop]
  split
  · rename_i met' r' ht'
    rw [ht] at ht'
    cases ht'
  · rename_i s'' ht'
    rw [ht] at ht'
    cases ht'
    rfl

theorem walkLoop_induction {P : Loop → Nat × Except IoError Located → Prop}
    (hdone : ∀ s met r, v.turn carry h path followFinal s = .done met r → P s (met, r))
    (hnext : ∀ s s' r, v.turn carry h path followFinal s = .next s' → P s' r → P s r) (s : Loop) :
    P s (v.walkLoop carry h path followFinal s) := by
  induction s using walkLoop.induct v carry h path followFinal with
  | case1 s met r ht =>
    rw [walkLoop_done ht]
    exact hdone s met r ht
  | case2 s s' ht ih =>
    rw [walkLoop_next ht]
    exact hnext s s' _ ht ih

/-! ## The loop is `locate` -/

variable (v h path followFinal) in
/-- What is answered from a state of the loop on, told by scans. -/
def answerFrom (s : Loop) : Except IoError Located :=
  match v.scan h followFinal s.cursor s.resolved s.pending with
  | .reached resolved => v.locateExact resolved
  | .failed e => .error e
  | .atLink located pending =>
    if maxSymlinkHops < s.hops + 1 then .error (loopError path)
    else
      match linkTarget h path located with
      | .error e => .error e
      | .ok target =>
        v.follow h path followFinal (maxSymlinkHops - (s.hops + 1)) (linkBase located target)
          (target.components ++ pending)

theorem follow_eq_answerFrom {resolved : VirtualPath} {pending : List OsStr} {hops : Nat}
    (hhops : hops ≤ maxSymlinkHops) :
    v.follow h path followFinal (maxSymlinkHops - hops) resolved pending =
      v.answerFrom h path followFinal ⟨resolved, pending, hops, none⟩ := by
  unfold answerFrom
  dsimp only
  cases hscan : v.scan h followFinal none resolved pending with
  | reached p => exact follow_reached hscan
  | failed e => exact follow_failed hscan
  | atLink l rest =>
    dsimp only
    by_cases hlast : maxSymlinkHops < hops + 1
    · rw [if_pos hlast, show maxSymlinkHops - hops = 0 by omega]
      exact follow_atLink_zero hscan
    · rw [if_neg hlast, show maxSymlinkHops - hops = (maxSymlinkHops - (hops + 1)) + 1 by omega]
      exact follow_atLink_succ hscan

theorem answerFrom_turn (s : Loop) : v.answerFrom h path followFinal s =
    match v.turn true h path followFinal s with
    | .done _ r => r
    | .next s' => v.answerFrom h path followFinal s' := by
  obtain ⟨resolved, pending, hops, cursor⟩ := s
  unfold turn
  dsimp only
  cases pending with
  | nil => rfl
  | cons c pending =>
    unfold answerFrom
    dsimp only
    rw [scan]
    cases hq : resolved.resolve c with
    | error e => rfl
    | ok q =>
      dsimp only
      cases hl : v.locateExact q with
      | error e =>
        dsimp only
        by_cases hthrough : pending ≠ [] ∧ q.isRoot = false ∧ v.table.hasMountBelow q = true
        · rw [if_pos hthrough, if_pos hthrough]
        · rw [if_neg hthrough, if_neg hthrough]
      | ok l =>
        dsimp only
        by_cases hstop : isLink (probe h (descent cursor l.mount) c l) = true ∧
            (pending ≠ [] ∨ followFinal = true)
        · rw [if_pos hstop, if_pos hstop]
          dsimp only
          by_cases hlast : maxSymlinkHops < hops + 1
          · rw [if_pos hlast, if_pos hlast]
          · rw [if_neg hlast, if_neg hlast]
            cases linkTarget h path l with
            | error e => rfl
            | ok target => exact follow_eq_answerFrom (by omega)
        · rw [if_neg hstop, if_neg hstop]
          simp

theorem walkLoop_eq_answerFrom (s : Loop) :
    (v.walkLoop true h path followFinal s).2 = v.answerFrom h path followFinal s := by
  refine walkLoop_induction (P := fun s r => r.2 = v.answerFrom h path followFinal s) ?_ ?_ s
  · intro s met r ht
    rw [answerFrom_turn, ht]
  · intro s s' r ht hr
    rw [answerFrom_turn, ht]
    exact hr

/-- **The loop is `locate`.** -/
theorem walkLoop_eq_locate (v : Vfs) (path : VirtualPath) (followFinal : Bool) (h : Host) :
    (v.walkLoop true h path followFinal (.start path)).2 = v.locate path followFinal h := by
  rw [walkLoop_eq_answerFrom]
  exact (follow_eq_answerFrom (Nat.zero_le _)).symm

/-! ## Links met -/

def OfHost (e : IoError) : Prop := (∃ n, e = .os n) ∨ e = escapeAttempt

variable {e : IoError}

omit [Unicode] in
theorem ofHost_walk {t : Tree} {root : HostPath} {follow : Bool} {budget : Nat} {cur : HostPath}
    {comps : List OsStr} (hw : t.walk root follow budget cur comps = .error e) :
    OfHost e := by
  induction budget generalizing cur comps with
  | zero =>
    rw [Tree.walk] at hw
    cases hd : t.descend root follow cur comps with
    | arrived p => rw [hd] at hw; cases hw
    | escaped => rw [hd] at hw; exact .inr (Except.error.inj hw).symm
    | stuck _ _ _ n => rw [hd] at hw; exact .inl ⟨n, (Except.error.inj hw).symm⟩
    | atLink _ _ _ _ => rw [hd] at hw; exact .inl ⟨.loop, (Except.error.inj hw).symm⟩
  | succ budget ih =>
    rw [Tree.walk] at hw
    cases hd : t.descend root follow cur comps with
    | arrived p => rw [hd] at hw; cases hw
    | escaped => rw [hd] at hw; exact .inr (Except.error.inj hw).symm
    | stuck _ _ _ n => rw [hd] at hw; exact .inl ⟨n, (Except.error.inj hw).symm⟩
    | atLink dir c target rest =>
      rw [hd] at hw
      dsimp only at hw
      split_ifs at hw with habs
      · exact .inr (Except.error.inj hw).symm
      · exact ih hw

omit [Unicode] in
theorem ofHost_readLinkContents {d : CapDir} {rel : List OsStr}
    (hr : d.readLinkContents rel h = .error e) : OfHost e := by
  unfold CapDir.readLinkContents CapDir.ask at hr
  cases hroot : (h.tree d.tree).pathOf d.ino with
  | none =>
    rw [hroot] at hr
    exact .inl ⟨.noent, (Except.error.inj hr).symm⟩
  | some root =>
    rw [hroot] at hr
    dsimp only at hr
    unfold Tree.readLink Tree.stat Tree.lookup at hr
    by_cases hnil : rel = []
    · rw [if_pos hnil] at hr
      exact .inl ⟨.noent, (Except.error.inj hr).symm⟩
    · rw [if_neg hnil] at hr
      by_cases hnul : ∃ c ∈ rel, OsChar.chr '\x00' ∈ c
      · rw [if_pos hnul] at hr
        exact .inl ⟨.inval, (Except.error.inj hr).symm⟩
      · rw [if_neg hnul] at hr
        cases hw : (h.tree d.tree).walk root false maxSymlinks root rel with
        | error e' =>
          rw [hw] at hr
          rw [← Except.error.inj hr]
          exact ofHost_walk hw
        | ok p =>
          rw [hw] at hr
          dsimp only at hr
          cases hn : (h.tree d.tree).node p with
          | none =>
            rw [hn] at hr
            exact .inl ⟨.noent, (Except.error.inj hr).symm⟩
          | some n =>
            rw [hn] at hr
            obtain ⟨i, k⟩ := n
            cases k with
            | link target => cases hr
            | _ => exact .inl ⟨.inval, (Except.error.inj hr).symm⟩

/-- What a last turn answers: the location of what has been resolved or an error of the walk, the
loop error at one link too many, or the error of a link that cannot be read. -/
theorem turn_done {met : Nat} {r : Except IoError Located}
    (ht : v.turn carry h path followFinal s = .done met r) :
    (met = s.hops ∧ ((s.pending = [] ∧ r = v.locateExact s.resolved) ∨
      (∃ q, r = .error (notFound q)) ∨ ∃ e, r = .error (invalidPath e))) ∨
    (met = s.hops + 1 ∧ maxSymlinkHops < s.hops + 1 ∧ r = .error (loopError path)) ∨
    (met = s.hops + 1 ∧ s.hops + 1 ≤ maxSymlinkHops ∧
      ∃ c pending q l e, s.pending = c :: pending ∧ s.resolved.resolve c = .ok q ∧
        v.locateExact q = .ok l ∧ isLink (probe h (descent s.cursor l.mount) c l) = true ∧
        linkTarget h path l = .error e ∧ r = .error e) := by
  unfold turn at ht
  cases hp : s.pending with
  | nil =>
    rw [hp] at ht
    obtain ⟨rfl, rfl⟩ := Turn.done.inj ht
    exact .inl ⟨rfl, .inl ⟨rfl, rfl⟩⟩
  | cons c pending =>
    rw [hp] at ht
    dsimp only at ht
    cases hq : s.resolved.resolve c with
    | error e =>
      rw [hq] at ht
      obtain ⟨rfl, rfl⟩ := Turn.done.inj ht
      exact .inl ⟨rfl, .inr (.inr ⟨e, rfl⟩)⟩
    | ok q =>
      rw [hq] at ht
      dsimp only at ht
      cases hl : v.locateExact q with
      | error e =>
        rw [hl] at ht
        dsimp only at ht
        split_ifs at ht
        obtain ⟨rfl, rfl⟩ := Turn.done.inj ht
        exact .inl ⟨rfl, .inr (.inl ⟨q, by rw [(locateExact_eq_error.1 hl).2]⟩)⟩
      | ok l =>
        rw [hl] at ht
        dsimp only at ht
        by_cases hstop : isLink (probe h (descent s.cursor l.mount) c l) = true ∧
            (pending ≠ [] ∨ followFinal = true)
        · rw [if_pos hstop] at ht
          by_cases hhops : maxSymlinkHops < s.hops + 1
          · rw [if_pos hhops] at ht
            obtain ⟨rfl, rfl⟩ := Turn.done.inj ht
            exact .inr (.inl ⟨rfl, hhops, rfl⟩)
          · rw [if_neg hhops] at ht
            cases htarget : linkTarget h path l with
            | error e =>
              rw [htarget] at ht
              obtain ⟨rfl, rfl⟩ := Turn.done.inj ht
              exact .inr (.inr ⟨rfl, by omega, c, pending, q, l, e, rfl, hq, hl, hstop.1,
                htarget, rfl⟩)
            | ok target => rw [htarget] at ht; cases ht
        · rw [if_neg hstop] at ht; cases ht

/-- **At most 41 links.** The links that a walk meets are those it follows, and at most one that is
one too many. -/
theorem met_le (s : Loop) (hs : s.hops ≤ maxSymlinkHops) :
    (v.walkLoop carry h path followFinal s).1 ≤ maxSymlinkHops + 1 := by
  refine walkLoop_induction
    (P := fun s r => s.hops ≤ maxSymlinkHops → r.1 ≤ maxSymlinkHops + 1) ?_ ?_ s hs
  · intro s met r ht hs
    dsimp only
    rcases turn_done ht with ⟨hmet, -⟩ | ⟨hmet, -⟩ | ⟨hmet, -⟩ <;> omega
  · intro s s' r ht hr hs
    refine hr ?_
    rcases turn_progress ht with ⟨hlt, heq⟩ | ⟨heq, -⟩ <;> omega

theorem loopError_kind : (loopError path).kind = .other := rfl

variable {l : Located}

theorem linkTarget_error (ht : linkTarget h path l = .error e) :
    OfHost e ∨ e.kind = .invalidData := by
  unfold linkTarget at ht
  cases hr : l.mount.dir.readLinkContents l.relative h with
  | error e' =>
    rw [hr] at ht
    rw [← Except.error.inj ht]
    exact .inl (ofHost_readLinkContents hr)
  | ok target =>
    rw [hr] at ht
    dsimp only at ht
    split_ifs at ht
    rw [← Except.error.inj ht]
    exact .inr rfl

omit [Unicode] in
theorem OfHost.kind_ne_other (he : OfHost e) : e.kind ≠ .other := by
  rcases he with ⟨n, rfl⟩ | rfl
  · cases n <;> nofun
  · nofun

/-- **The loop error.** It is answered only once a walk has met more links than it may follow. -/
theorem met_of_loop (s : Loop)
    (hr : (v.walkLoop carry h path followFinal s).2 = .error (loopError path)) :
    maxSymlinkHops < (v.walkLoop carry h path followFinal s).1 := by
  refine walkLoop_induction
    (P := fun _ r => r.2 = .error (loopError path) → maxSymlinkHops < r.1) ?_ ?_ s hr
  · intro s met r ht hr
    dsimp only at hr ⊢
    rcases turn_done ht with ⟨-, hexact | ⟨q, hq⟩ | ⟨e, he⟩⟩ | ⟨hmet, hlt, -⟩ |
      ⟨-, -, c, pending, q, l, e, -, -, -, -, htarget, he⟩
    · have hnot := (locateExact_eq_error.1 (hexact.2.symm.trans hr)).2
      cases hnot
    · rw [hq] at hr
      cases hr
    · rw [he] at hr
      cases hr
    · rwa [hmet]
    · rw [he] at hr
      have hkind := congrArg IoError.kind (Except.error.inj hr)
      rw [loopError_kind] at hkind
      rcases linkTarget_error htarget with hhost | hdata
      · exact absurd hkind hhost.kind_ne_other
      · rw [hdata] at hkind
        cases hkind
  · exact fun s s' r _ hr => hr

/-! ## Canonical paths -/

variable {p : VirtualPath}

theorem scan_clear {resolved : VirtualPath} {pending : List OsStr} {followFinal : Bool}
    (hl : v.locateExact p = .ok l) (hclear : v.Clear h p)
    (hp : p.components = resolved.components ++ pending) :
    v.trace h followFinal resolved pending = .reached p := by
  induction pending generalizing resolved with
  | nil =>
    rw [List.append_nil] at hp
    rw [trace, VirtualPath.ext hp]
  | cons c pending ih =>
    have hc : IsComponent c := p.valid c (by rw [hp]; simp)
    have hpush : p.components = (resolved.push c hc).components ++ pending := by
      rw [hp, VirtualPath.components_push, List.append_assoc, List.singleton_append]
    rw [trace, VirtualPath.resolve_component _ hc]
    dsimp only
    cases hq : v.locateExact (resolved.push c hc) with
    | error e =>
      -- no mount governs it, so the mount that governs `p` lies beneath it
      have hmount := mem_of_locateExact hl
      have hat : l.mount.at.components <+: p.components :=
        components_of_locateExact hl ▸ List.prefix_append _ _
      have hpre : (resolved.push c hc).components <+: p.components :=
        hpush ▸ List.prefix_append _ _
      have hnot : ¬l.mount.at.components <+: (resolved.push c hc).components :=
        MountTable.resolve_eq_none.1 (locateExact_eq_error.1 hq).1 _ hmount
      have hbelow : (resolved.push c hc).components <+: l.mount.at.components :=
        (List.prefix_or_prefix_of_prefix hpre hat).resolve_right hnot
      have hne : l.mount.at ≠ resolved.push c hc := by
        intro heq
        exact hnot (heq ▸ List.prefix_refl _)
      have hpending : pending ≠ [] := by
        rintro rfl
        rw [VirtualPath.ext (hpush.trans (List.append_nil _))] at hl
        rw [hl] at hq
        cases hq
      dsimp only
      rw [if_pos ⟨hpending, by simp [VirtualPath.isRoot],
        MountTable.hasPointBelow_iff.2 ⟨l.mount, hmount, hne, hbelow⟩⟩]
      exact ih hpush
    | ok l' =>
      dsimp only
      have hlink : l'.link h = none := by
        rw [← linkAt_of_exact hq]
        exact hclear _ (hpush ▸ List.prefix_append _ _)
      rw [hlink, if_neg (by simp)]
      exact ih hpush

theorem locate_clear (hl : v.locateExact p = .ok l)
    (hclear : v.Clear h p) : v.locate p true h = .ok l := by
  have htrace : v.trace h true .root p.components = .reached p := scan_clear hl hclear rfl
  rw [← scan_eq_trace (fun c hc => (p.valid c hc).queued) clear_root cursorOn_none] at htrace
  exact (follow_reached htrace).trans hl

theorem canonicalize_eq_ok {q : VirtualPath} : v.canonicalize p h = .ok q ↔
    ∃ l, v.locate p true h = .ok l ∧ l.virtualPath = q := by
  unfold canonicalize locateFollow
  cases v.locate p true h <;> simp [Except.map]

/-- **Canonical paths and links met.** Where the links followed are spelled the way the grammar
spells names, what `canonicalize` answers has no link on the way and is its own canonical path. A
walk comes to an end after 41 links at most, and reports a loop only after more than 40. -/
theorem canonicalize_settles (v : Vfs) (h : Host) (p : VirtualPath) :
    (∀ q, v.SpelledWay h p true → v.canonicalize p h = .ok q →
      v.Clear h q ∧ v.canonicalize q h = .ok q) ∧
    ∀ followFinal, ∃ met,
      v.walkLoop true h p followFinal (.start p) = (met, v.locate p followFinal h) ∧
      met ≤ 41 ∧ (v.locate p followFinal h = .error (loopError p) → 40 < met) := by
  refine ⟨fun q hs hq => ?_, fun followFinal => ⟨(v.walkLoop true h p followFinal (.start p)).1,
    Prod.ext rfl (walkLoop_eq_locate v p followFinal h), met_le _ (Nat.zero_le _), fun hloop => ?_⟩⟩
  · obtain ⟨l, hl, rfl⟩ := canonicalize_eq_ok.1 hq
    have hclear := (clear_of_spelledWay hs hl).2 rfl
    exact ⟨hclear, canonicalize_eq_ok.2 ⟨l, locate_clear (exact_of_locate hl) hclear, rfl⟩⟩
  · exact met_of_loop _ ((walkLoop_eq_locate v p followFinal h).trans hloop)

end Seahaven.Vfs

namespace Seahaven.Vfs

open Host OsStr

section Fixture

attribute [local instance] composed

/-- A host with a link `up` to a file beside its directory, and a link `ring` to itself. -/
def ringHost : Host := .ofTrees [.ofEntries [([os "notes"], .file), ([os "a"], .dir),
  ([os "a", os "up"], .link (os "../notes")), ([os "ring"], .link (os "ring"))]]

/-- A namespace with that host's tree at `/work`. -/
def ringVfs : Vfs where
  table := .fromMounts [⟨⟨[os "work"], work_valid⟩, ⟨0, 0⟩, none, none, .readWrite, false⟩]
    (by decide)
  roots := by decide
  apart := by decide

/-- `/work/a/up` is canonically `/work/notes`. -/
theorem canonicalize_up : ringVfs.Clear ringHost ⟨[os "work", os "notes"], by decide⟩ ∧
      ringVfs.canonicalize ⟨[os "work", os "notes"], by decide⟩ ringHost =
        .ok ⟨[os "work", os "notes"], by decide⟩ :=
  (canonicalize_settles ringVfs ringHost ⟨[os "work", os "a", os "up"], by decide⟩).1 _
    (by
      have htargets : ringVfs.targetsOf ⟨[os "work", os "a", os "up"], by decide⟩ true ringHost =
          [os "../notes"] := by decide
      intro t ht
      rw [htargets, List.mem_singleton] at ht
      subst ht
      decide)
    (by decide)

end Fixture

end Seahaven.Vfs
