import Seahaven.Vfs.Depth
import Seahaven.Vfs.Shadow

/-!
# A final link

Most operations are run where `locate` has followed a final link to; a few are run at the link, and
let the host follow it. The host knows nothing of the mount table, so the two lead to one place as
long as the host's way passes nothing a nested mount covers.

1. `Tree.skirts`: the host's walk passes nothing of a set of paths.
2. `follow_of_walk`: where such a walk arrives, the namespace's arrives at the same place.
3. `follow_final`: what a walk to a final link has left to do to follow it.
-/

namespace Seahaven.Host.Tree

open OsStr

variable (t : Tree) (P : HostPath → Prop) [DecidablePred P]

/-- Whether a walk along plain components passes nothing of `P`. -/
def skirtsPlain (cur : HostPath) : List OsStr → Bool
  | [] => true
  | c :: rest =>
    if c = [] ∨ c = dot then skirtsPlain cur rest
    else if c = dotdot then skirtsPlain cur.dropLast rest
    else if P (cur ++ [c]) then false
    else
      match t.node (cur ++ [c]) with
      | some ⟨_, .dir⟩ => skirtsPlain (cur ++ [c]) rest
      | _ => true

/-- Whether a walk beneath the tree's root, links included, passes nothing of `P`. -/
def skirts (follow : Bool) : Nat → HostPath → List OsStr → Bool
  | budget, cur, comps =>
    skirtsPlain t P cur comps &&
      match t.descend [] follow cur comps with
      | .atLink dir _ target rest =>
        match budget with
        | 0 => true
        | budget + 1 => skirts follow budget dir (target.split ++ rest)
      | _ => true

variable {t} {P}

section Plain

variable {cur : HostPath} {c : OsStr} {rest : List OsStr}

theorem skirtsPlain_skip (hc : c = [] ∨ c = dot) :
    t.skirtsPlain P cur (c :: rest) = t.skirtsPlain P cur rest := by
  rw [skirtsPlain, if_pos hc]

theorem skirtsPlain_dotdot :
    t.skirtsPlain P cur (dotdot :: rest) = t.skirtsPlain P cur.dropLast rest := by
  rw [skirtsPlain, if_neg (by decide), if_pos rfl]

theorem not_of_skirtsPlain (hc : IsPlain c) (h : t.skirtsPlain P cur (c :: rest) = true) :
    ¬ P (cur ++ [c]) := by
  intro hP
  rw [skirtsPlain, if_neg (not_or.2 ⟨hc.1, hc.2.1⟩), if_neg hc.2.2, if_pos hP] at h
  cases h

theorem skirtsPlain_dir (hc : IsPlain c) {i : Nat} (hn : t.node (cur ++ [c]) = some ⟨i, .dir⟩)
    (h : t.skirtsPlain P cur (c :: rest) = true) : t.skirtsPlain P (cur ++ [c]) rest = true := by
  have hP := not_of_skirtsPlain hc h
  rw [skirtsPlain, if_neg (not_or.2 ⟨hc.1, hc.2.1⟩), if_neg hc.2.2, if_neg hP, hn] at h
  exact h

end Plain

theorem skirtsPlain_of_forall (hP : ∀ p, ¬ P p) (cur : HostPath) (comps : List OsStr) :
    t.skirtsPlain P cur comps = true := by
  induction comps generalizing cur with
  | nil => rfl
  | cons c rest ih =>
    rw [skirtsPlain]
    split_ifs with _ _ hp
    · exact ih cur
    · exact ih cur.dropLast
    · exact absurd hp (hP _)
    · split
      · exact ih _
      · rfl

theorem skirts_of_forall (hP : ∀ p, ¬ P p) {follow : Bool} (budget : Nat) (cur : HostPath)
    (comps : List OsStr) : t.skirts P follow budget cur comps = true := by
  induction budget generalizing cur comps with
  | zero =>
    rw [skirts, skirtsPlain_of_forall hP]
    split <;> rfl
  | succ budget ih =>
    rw [skirts, skirtsPlain_of_forall hP]
    split
    · exact ih _ _
    · rfl

theorem descend_to_link {dir : HostPath} {c target : OsStr} (hplain : ∀ c ∈ dir, IsPlain c)
    (hc : IsPlain c) (hlink : t.linkAt (dir ++ [c]) = some target) :
    t.descend [] true [] (dir ++ [c]) = .atLink dir c target [] := by
  have hdir : t.isDir dir = true := isDir_parent (isPresent_of_linkAt hlink)
  have harrive : t.descend [] true [] dir = .arrived ([] ++ dir) :=
    descend_present hplain (isPresent_of_isDir hdir) fun _ => linkAt_of_isDir hdir
  obtain ⟨i, hn⟩ := linkAt_eq_some.1 hlink
  rw [descend_append harrive hdir, List.nil_append, descend_link hc hn, if_neg (by simp)]

end Seahaven.Host.Tree

namespace Seahaven.Vfs

open Host OsStr

variable [Unicode] {v : Vfs} {h : Host} {m : Mount} {p q : VirtualPath} {r : HostPath}
  {l : Located} {pending comps : List OsStr}

/-! ## Governed paths -/

theorem exact_of_not_covers (hm : m ∈ v.table.mounts) (hr : ¬ v.Covers m r)
    (hq : q.components = m.at.components ++ r) : v.locateExact q = .ok ⟨m, r, q⟩ := by
  refine locateExact_eq_ok.2 ⟨MountTable.resolve_eq_some.2 ⟨hm, hq, fun m' hm' hpre => ?_⟩, rfl⟩
  have hat : m.at.components <+: q.components := hq ▸ List.prefix_append _ _
  rcases List.prefix_or_prefix_of_prefix hpre hat with h | h
  · exact h
  · by_cases he : m'.at = m.at
    · rw [he]
    · exact absurd ⟨m', hm', he, h, hq ▸ hpre⟩ hr

theorem not_covers_above {s : HostPath} (hr : ¬ v.Covers m r) (hs : s <+: r) : ¬ v.Covers m s :=
  fun ⟨m', hm', hne, hover, hpre⟩ =>
    hr ⟨m', hm', hne, hover, hpre.trans ((List.prefix_append_right_inj _).2 hs)⟩

/-! ## One scan of a walk that arrives -/

variable (v h m) in
/-- Where a scan of the namespace ends if the host's walk of the same components ends at `S`. -/
def Meets (S : Stop) (T : Scanned) : Prop :=
  match S with
  | .arrived s => ∃ q, T = .reached q ∧ v.locateExact q = .ok ⟨m, s, q⟩
  | .atLink dir c target rest => ∃ q, T = .atLink ⟨m, dir ++ [c], q⟩ (rest.filter (· ≠ [])) ∧
      q.components = m.at.components ++ (dir ++ [c]) ∧ ¬ v.Covers m (dir ++ [c]) ∧
      (h.tree m.dir.tree).linkAt (dir ++ [c]) = some target ∧ v.ClearAbove h q
  | _ => True

/-- **One scan.** Where the host's walk arrives or comes to a link and has passed nothing covered,
so does the namespace's. -/
theorem trace_meets (hm : m ∈ v.table.mounts) (hcomps : ∀ c ∈ comps, c = [] ∨ Queued c)
    (hgood : ∀ c ∈ comps, ¬ Ungrammatical c) (hr : ¬ v.Covers m r)
    (hq : q.components = m.at.components ++ r) (hclear : v.Clear h q)
    (hskirts : (h.tree m.dir.tree).skirtsPlain (v.Covers m) r comps = true) :
    Meets v h m ((h.tree m.dir.tree).descend [] true r comps)
      (v.trace h true q (comps.filter (· ≠ []))) := by
  induction comps generalizing q r with
  | nil => exact ⟨q, rfl, exact_of_not_covers hm hr hq⟩
  | cons c comps ih =>
    obtain ⟨hc, hrest⟩ := List.forall_mem_cons.1 hcomps
    obtain ⟨hgram, hgrams⟩ := List.forall_mem_cons.1 hgood
    by_cases hnil : c = []
    · rw [Tree.skirtsPlain_skip (Or.inl hnil)] at hskirts
      rw [Tree.descend_skip (Or.inl hnil), List.filter_cons_of_neg (by simp [hnil])]
      exact ih hrest hgrams hr hq hclear hskirts
    have hqueue : Queued c := hc.resolve_left hnil
    rw [List.filter_cons_of_pos (by simp [hnil])]
    have hexact := exact_of_not_covers hm hr hq
    by_cases hdot : c = dot
    · subst hdot
      have hlink : (⟨m, r, q⟩ : Located).link h = none := by
        rw [← linkAt_of_exact hexact]
        exact hclear q (List.prefix_refl _)
      rw [Tree.skirtsPlain_skip (Or.inr rfl)] at hskirts
      rw [Tree.descend_skip (Or.inr rfl), trace_step q.resolve_dot hexact hlink]
      exact ih hrest hgrams hr hq hclear hskirts
    by_cases hdotdot : c = dotdot
    · subst hdotdot
      rw [Tree.descend_dotdot]
      by_cases hroot : r = []
      · rw [if_pos hroot]
        trivial
      · rw [if_neg hroot]
        obtain ⟨p, hp⟩ : ∃ p, q.parent = some p := by
          unfold VirtualPath.parent
          rw [if_neg (by simp [VirtualPath.isRoot, hq, hroot])]
          exact ⟨_, rfl⟩
        have hpc : p.components = m.at.components ++ r.dropLast := by
          unfold VirtualPath.parent at hp
          split_ifs at hp
          obtain rfl := Option.some.inj hp
          show q.components.dropLast = _
          rw [hq, List.dropLast_append_of_ne_nil hroot]
        have hup := not_covers_above hr (List.dropLast_prefix r)
        have hpclear := hclear.mono (prefix_of_parent hp)
        have hpexact := exact_of_not_covers hm hup hpc
        have hlink : (⟨m, r.dropLast, p⟩ : Located).link h = none := by
          rw [← linkAt_of_exact hpexact]
          exact hpclear p (List.prefix_refl _)
        rw [Tree.skirtsPlain_dotdot] at hskirts
        rw [trace_step (VirtualPath.resolve_dotdot_of_parent hp) hpexact hlink]
        exact ih hrest hgrams hup hpc hpclear hskirts
    have hp : IsPlain c := ⟨hnil, hdot, hdotdot⟩
    have hcover := Tree.not_of_skirtsPlain hp hskirts
    rcases resolve_plain (q := q) hqueue hp with ⟨hcomp, hres⟩ | ⟨href, -⟩
    · have hqc : (q.push c hcomp).components = m.at.components ++ (r ++ [c]) := by
        rw [VirtualPath.components_push, hq, List.append_assoc]
      have hcexact := exact_of_not_covers hm hcover hqc
      have habove : v.ClearAbove h (q.push c hcomp) := ClearAbove.push hclear
      -- what ends the host's walk is arrived at only by the last component
      have hleaf : ∀ e : Errno, (h.tree m.dir.tree).linkAt (r ++ [c]) = none →
          (h.tree m.dir.tree).descend [] true r (c :: comps) =
            (if comps = [] then .arrived (r ++ [c]) else .stuck r c comps e) →
          Meets v h m ((h.tree m.dir.tree).descend [] true r (c :: comps))
            (v.trace h true q (c :: comps.filter (· ≠ []))) := by
        intro e hnlink hd
        rw [hd, trace_step hres hcexact hnlink]
        by_cases hlast : comps = []
        · rw [if_pos hlast, hlast]
          exact ⟨_, rfl, hcexact⟩
        · rw [if_neg hlast]
          trivial
      cases (h.tree m.dir.tree).meets r c with
      | skip hs => exact (hs.elim hnil hdot).elim
      | up hs => exact absurd hs hdotdot
      | missing _ hn =>
        exact hleaf .noent (by rw [Tree.linkAt, hn]) (Tree.descend_none hp hn)
      | dir _ i hn =>
        have hnlink := Tree.linkAt_of_isDir (Tree.isDir_iff.2 ⟨i, hn⟩)
        rw [Tree.descend_dir hp hn, trace_step hres hcexact hnlink]
        exact ih hrest hgrams hcover hqc (clear_of_link habove hcexact hnlink)
          (Tree.skirtsPlain_dir hp hn hskirts)
      | link _ i target hn =>
        have hlink : (h.tree m.dir.tree).linkAt (r ++ [c]) = some target :=
          Tree.linkAt_eq_some.2 ⟨i, hn⟩
        rw [Tree.descend_link hp hn, if_neg (by simp),
          trace_link hres hcexact hlink (Or.inr rfl)]
        exact ⟨_, rfl, hqc, hcover, hlink, habove⟩
      | leaf _ n hn hndir hnlink =>
        refine hleaf .notdir ?_ (Tree.descend_leaf hp hn hndir hnlink)
        by_contra hne
        obtain ⟨target, ht⟩ := Option.ne_none_iff_exists'.1 hne
        obtain ⟨i, hi⟩ := Tree.linkAt_eq_some.1 ht
        exact hnlink target (congrArg Node.kind (Option.some.inj (hn.symm.trans hi)))
    · exact absurd href hgram

/-! ## A walk that arrives -/

/-- **Where the host arrives.** A host's walk that arrives and passes nothing covered leads where
the namespace's walk leads, if that has the hops for it. -/
theorem follow_of_walk (hm : m ∈ v.table.mounts) {path : VirtualPath} {budget hops : Nat}
    {s : HostPath} (hcomps : ∀ c ∈ comps, c = [] ∨ Queued c)
    (hgood : ∀ c ∈ comps, ¬ Ungrammatical c) (hr : ¬ v.Covers m r)
    (hq : q.components = m.at.components ++ r) (hclear : v.Clear h q)
    (hskirts : (h.tree m.dir.tree).skirts (v.Covers m) true budget r comps = true)
    (hwalk : (h.tree m.dir.tree).walk [] true budget r comps = .ok s)
    (htargets : ∀ t ∈ v.targets h true hops q (comps.filter (· ≠ [])),
      ¬ BadTarget t ∧ ∀ c ∈ t.components, Spelled c)
    (hhops : budget ≤ hops ∨ (v.targets h true hops q (comps.filter (· ≠ []))).length < hops) :
    ∃ q', v.follow h path true hops q (comps.filter (· ≠ [])) = .ok ⟨m, s, q'⟩ := by
  induction budget generalizing hops q r comps with
  | zero =>
    rw [Tree.skirts, Bool.and_eq_true] at hskirts
    have hmeets := trace_meets hm hcomps hgood hr hq hclear hskirts.1
    have hqueued : ∀ c ∈ comps.filter (· ≠ []), Queued c := fun c hc =>
      (hcomps c (List.mem_filter.1 hc).1).resolve_left (by simpa using (List.mem_filter.1 hc).2)
    rw [← scan_eq_trace hqueued hclear cursorOn_none] at hmeets
    rw [Tree.walk] at hwalk
    generalize hS : (h.tree m.dir.tree).descend [] true r comps = S at hmeets hwalk
    cases S with
    | arrived s' =>
      obtain rfl := Except.ok.inj hwalk
      obtain ⟨q', hT, hl⟩ := hmeets
      exact ⟨q', by rw [follow_reached hT, hl]⟩
    | escaped => cases hwalk
    | stuck _ _ _ _ => cases hwalk
    | atLink _ _ _ _ => cases hwalk
  | succ budget ih =>
    rw [Tree.skirts, Bool.and_eq_true] at hskirts
    have hmeets := trace_meets hm hcomps hgood hr hq hclear hskirts.1
    have hqueued : ∀ c ∈ comps.filter (· ≠ []), Queued c := fun c hc =>
      (hcomps c (List.mem_filter.1 hc).1).resolve_left (by simpa using (List.mem_filter.1 hc).2)
    rw [← scan_eq_trace hqueued hclear cursorOn_none] at hmeets
    rw [Tree.walk] at hwalk
    generalize hS : (h.tree m.dir.tree).descend [] true r comps = S at hmeets hwalk hskirts
    cases S with
    | arrived s' =>
      obtain rfl := Except.ok.inj hwalk
      obtain ⟨q', hT, hl⟩ := hmeets
      exact ⟨q', by rw [follow_reached hT, hl]⟩
    | escaped => cases hwalk
    | stuck _ _ _ _ => cases hwalk
    | atLink dir c target rest =>
      obtain ⟨q', hT, hq', hcover, hlink, habove⟩ := hmeets
      dsimp only at hwalk hskirts
      split_ifs at hwalk with habs
      have hl := exact_of_not_covers hm hcover hq'
      obtain ⟨k, rfl⟩ : ∃ k, hops = k + 1 := by
        cases hops with
        | zero => simp at hhops
        | succ k => exact ⟨k, rfl⟩
      have hpending : target.components ++ rest.filter (· ≠ []) =
          (target.split ++ rest).filter (· ≠ []) := by
        rw [List.filter_append]
        rfl
      rw [targets_atLink k hT hl hlink, hpending] at htargets hhops
      obtain ⟨⟨hgoodT, hspell⟩, htail⟩ := List.forall_mem_cons.1 htargets
      have hutf : target.isUtf8 = true := by
        by_contra hn
        exact hgoodT (Or.inl (by simpa using hn))
      obtain ⟨hsuffix, -⟩ := Tree.suffix_of_atLink hS
      have hcomps' : ∀ c ∈ target.split ++ rest, c = [] ∨ Queued c := by
        intro d hd
        by_cases hnil : d = []
        · exact Or.inl hnil
        · rcases List.mem_append.1 hd with hd | hd
          · exact Or.inr ⟨hnil, slash_not_mem_of_mem_split hd,
              hspell d (mem_components.2 ⟨hd, hnil⟩)⟩
          · exact hcomps d (hsuffix.subset hd)
      have hgood' : ∀ c ∈ target.split ++ rest, ¬ Ungrammatical c := by
        intro d hd hbad
        rcases List.mem_append.1 hd with hd | hd
        · exact hgoodT (Or.inr ⟨d, mem_components.2 ⟨hd, hbad.1.1⟩, hbad⟩)
        · exact hgood d (hsuffix.subset hd) hbad
      rw [follow_atLink_succ hT, linkTarget_eq hl hlink, if_pos hutf]
      dsimp only
      rw [hpending]
      refine ih hcomps' hgood' (not_covers_above hcover (List.prefix_append _ _))
        (linkBase_relative (by simpa using habs) hq') (clear_linkBase habove) hskirts.2 hwalk
        htail ?_
      rw [List.length_cons] at hhops
      exact hhops.imp Nat.le_of_succ_le_succ Nat.lt_of_succ_lt_succ

theorem scan_from_mount {followFinal : Bool} (hm : m ∈ v.table.mounts)
    (habove : v.ClearAbove h m.at) (hp : p.components = m.at.components ++ r) :
    v.scan h followFinal none .root p.components = v.scan h followFinal none m.at r := by
  have hroot : v.Clear h m.at := by
    refine clear_iff.2 ⟨habove, ?_⟩
    rw [linkAt, Vfs.locateExact, MountTable.resolve_at hm]
    exact link_of_relative_nil rfl
  have hcomp : ∀ c ∈ r, Queued c := fun c hc =>
    (p.valid c (hp ▸ List.mem_append_right _ hc)).queued
  rw [scan_eq_trace (fun c hc => (p.valid c hc).queued) clear_root cursorOn_none,
    scan_eq_trace hcomp hroot cursorOn_none, hp]
  exact trace_to_mount hm habove rfl

/-! ## What a walk to a final link leaves out -/

theorem trace_final {p r : VirtualPath} (hpend : ∀ c ∈ pending, Queued c) (hp : v.Clear h p)
    (hr : v.trace h false p pending = .reached r) (hl : v.locateExact r = .ok l) :
    (v.trace h true p pending = .reached r ∧ v.Clear h r) ∨
      (v.trace h true p pending = .atLink l [] ∧ v.ClearAbove h r ∧
        ∃ target, l.link h = some target) := by
  induction pending generalizing p with
  | nil =>
    obtain rfl : p = r := Scanned.reached.inj hr
    exact Or.inl ⟨rfl, hp⟩
  | cons c pending ih =>
    have hc := hpend c List.mem_cons_self
    have hrest := fun d hd => hpend d (List.mem_cons_of_mem _ hd)
    obtain ⟨q, hq, ⟨l', target, -, -, -, hs⟩ | ⟨hr, hnext⟩⟩ := trace_cons hr nofun
    · cases hs
    have habove := above_of_resolve hc hp hq
    obtain ⟨e, hl', hshape⟩ | ⟨l', hl', hlink | ⟨⟨target, hlink⟩, rfl, -⟩⟩ := hnext
    · rw [trace_through hq hl' hshape]
      exact ih hrest (clear_of_error habove hl') hr
    · rw [trace_step hq hl' hlink]
      exact ih hrest (clear_of_link habove hl' hlink) hr
    · rw [trace_link hq hl' hlink (Or.inr rfl)]
      obtain rfl : q = r := Scanned.reached.inj hr
      obtain rfl := Except.ok.inj (hl'.symm.trans hl)
      exact Or.inr ⟨rfl, habove, target, hlink⟩

theorem trace_atLink_true {p : VirtualPath} {rest : List OsStr}
    (hr : v.trace h false p pending = .atLink l rest) :
    v.trace h true p pending = .atLink l rest := by
  induction pending generalizing p with
  | nil => cases hr
  | cons c pending ih =>
    obtain ⟨q, hq, ⟨l', target, hl', hlink, -, hs⟩ | ⟨hr, hnext⟩⟩ := trace_cons hr nofun
    · exact (trace_link hq hl' hlink (Or.inr rfl)).trans hs.symm
    obtain ⟨e, hl', hshape⟩ | ⟨l', hl', hlink | ⟨-, rfl, -⟩⟩ := hnext
    · rw [trace_through hq hl' hshape]
      exact ih hr
    · rw [trace_step hq hl' hlink]
      exact ih hr
    · cases hr

/-- Where a walk that is to follow the last link still has to follow it: at the link `l`, with `k`
hops left of `hops`. -/
structure Left (v : Vfs) (h : Host) (path : VirtualPath) (hops : Nat) (p : VirtualPath)
    (pending : List OsStr) (l : Located) (k : Nat) (base : VirtualPath) (rest : List OsStr) :
    Prop where
  scan : v.scan h true none base rest = .atLink l []
  follow : v.follow h path true hops p pending = v.follow h path true k base rest
  targets : ∃ used, used.length + k = hops ∧
    v.targets h true hops p pending = used ++ v.targets h true k base rest

/-- **To the link and beyond.** A walk that does not follow the last link ends where one that does
ends, or at a link that one has left to follow. -/
theorem follow_final {path : VirtualPath} {hops : Nat} {p : VirtualPath}
    (hs : ∀ t ∈ v.targets h true hops p pending, ∀ c ∈ t.components, Spelled c)
    (hpend : ∀ c ∈ pending, Queued c) (hp : v.Clear h p)
    (hl : v.follow h path false hops p pending = .ok l) :
    (v.follow h path true hops p pending = .ok l ∧ v.Clear h l.virtualPath) ∨
      (v.ClearAbove h l.virtualPath ∧ (∃ target, l.link h = some target) ∧
        ∃ k base rest, Left v h path hops p pending l k base rest) := by
  induction hops generalizing p pending with
  | zero =>
    cases hscan : v.scan h false none p pending with
    | failed e =>
      rw [follow_failed hscan] at hl
      cases hl
    | atLink l' rest =>
      rw [follow_atLink_zero hscan] at hl
      cases hl
    | reached r =>
      rw [follow_reached hscan] at hl
      obtain rfl := (locateExact_eq_ok.1 hl).2
      rw [scan_eq_trace hpend hp cursorOn_none] at hscan
      rcases trace_final hpend hp hscan hl with ⟨htrue, hclear⟩ | ⟨htrue, habove, hlink⟩
      · rw [← scan_eq_trace hpend hp cursorOn_none] at htrue
        exact Or.inl ⟨by rw [follow_reached htrue, hl], hclear⟩
      · rw [← scan_eq_trace hpend hp cursorOn_none] at htrue
        exact Or.inr ⟨habove, hlink, 0, p, pending, htrue, rfl, [], rfl, rfl⟩
  | succ hops ih =>
    cases hscan : v.scan h false none p pending with
    | failed e =>
      rw [follow_failed hscan] at hl
      cases hl
    | reached r =>
      rw [follow_reached hscan] at hl
      obtain rfl := (locateExact_eq_ok.1 hl).2
      rw [scan_eq_trace hpend hp cursorOn_none] at hscan
      rcases trace_final hpend hp hscan hl with ⟨htrue, hclear⟩ | ⟨htrue, habove, hlink⟩
      · rw [← scan_eq_trace hpend hp cursorOn_none] at htrue
        exact Or.inl ⟨by rw [follow_reached htrue, hl], hclear⟩
      · rw [← scan_eq_trace hpend hp cursorOn_none] at htrue
        exact Or.inr ⟨habove, hlink, hops + 1, p, pending, htrue, rfl, [], by simp, rfl⟩
    | atLink l' rest =>
      have htrace := hscan
      rw [scan_eq_trace hpend hp cursorOn_none] at htrace
      obtain ⟨hl', habove, ⟨target, hlink⟩, hrest⟩ := trace_atLink hpend hp htrace
      have htrue := trace_atLink_true htrace
      rw [← scan_eq_trace hpend hp cursorOn_none] at htrue
      have htargets := targets_atLink hops htrue hl' hlink
      rw [htargets] at hs
      obtain ⟨hspell, hs⟩ := List.forall_mem_cons.1 hs
      have hpend' : ∀ c ∈ target.components ++ rest, Queued c := fun c hc =>
        (List.mem_append.1 hc).elim (queued_target hspell c) (hrest c)
      rw [follow_atLink_succ hscan, linkTarget_eq hl' hlink] at hl
      by_cases hutf : target.isUtf8 = true
      · rw [if_pos hutf] at hl
        dsimp only at hl
        have hstep : v.follow h path true (hops + 1) p pending =
            v.follow h path true hops (linkBase l' target) (target.components ++ rest) := by
          rw [follow_atLink_succ htrue, linkTarget_eq hl' hlink, if_pos hutf]
        rw [hstep]
        rcases ih hs hpend' (clear_linkBase habove) hl with hsame |
          ⟨habove, hlink, k, base, rest', hleft⟩
        · exact Or.inl hsame
        · obtain ⟨used, hlen, heq⟩ := hleft.targets
          refine Or.inr ⟨habove, hlink, k, base, rest', hleft.scan, ?_, target :: used, ?_, ?_⟩
          · rw [hstep, hleft.follow]
          · rw [List.length_cons]
            omega
          · rw [htargets, heq, List.cons_append]
      · rw [if_neg hutf] at hl
        cases hl

end Seahaven.Vfs
