import Seahaven.Vfs.Names

/-!
# The host's walk and the namespace's

Beneath a mount that shadows no other, `locate` looks up the components the host's own walk goes
through. The two part where the host's walk ends: `locate` does not ask whether a component exists
or is a directory before it goes on.

1. `Ends`: which end of a scan belongs to which end of the host's `descend`.
2. `Vfs.targets`: the links a walk follows.
3. `Tree.firm`: the host's walk never climbs out, and only names are left where it is stuck.
4. `Outcome`: what the two walks answer, and when they do not answer alike.
-/

variable {budget : Nat} {cur : HostPath} {target : OsStr} {rest : List OsStr}

namespace Seahaven.Host

open OsStr

def onlyNames (rest : List OsStr) : Bool :=
  rest.any (· ≠ []) && rest.all fun c => c ≠ dot ∧ c ≠ dotdot

namespace Tree

variable (t : Tree)

/-- Whether a walk beneath the tree's root never climbs above it, and has only names left where it
comes to nothing or to what is no directory. -/
def firm (follow : Bool) : Nat → HostPath → List OsStr → Bool
  | budget, cur, comps =>
    match t.descend [] follow cur comps with
    | .arrived _ => true
    | .escaped => false
    | .stuck _ _ rest _ => onlyNames rest
    | .atLink dir _ target rest =>
      match budget with
      | 0 => true
      | budget + 1 => target.isAbsolute || firm follow budget dir (target.split ++ rest)

variable {t}

theorem firm_of_walk {follow : Bool} {s : HostPath} {comps : List OsStr}
    (h : t.walk [] follow budget cur comps = .ok s) : t.firm follow budget cur comps = true := by
  induction budget generalizing cur comps with
  | zero =>
    rw [walk] at h
    rw [firm]
    cases hd : t.descend [] follow cur comps with
    | arrived q => rfl
    | escaped =>
      rw [hd] at h
      cases h
    | stuck _ _ _ _ =>
      rw [hd] at h
      cases h
    | atLink _ _ _ _ => rfl
  | succ budget ih =>
    rw [walk] at h
    rw [firm]
    cases hd : t.descend [] follow cur comps with
    | arrived q => rfl
    | escaped =>
      rw [hd] at h
      cases h
    | stuck _ _ _ _ =>
      rw [hd] at h
      cases h
    | atLink dir c target rest =>
      rw [hd] at h
      dsimp only at h ⊢
      split_ifs at h
      rw [ih h, Bool.or_true]

theorem suffix_of_atLink {root dir : HostPath} {follow : Bool} {c : OsStr}
    {comps : List OsStr} (hd : t.descend root follow cur comps = .atLink dir c target rest) :
    rest <:+ comps ∧ (follow = true ∨ rest ≠ []) := by
  induction comps generalizing cur with
  | nil => cases hd
  | cons a comps ih =>
    have hweak : rest <:+ comps ∧ (follow = true ∨ rest ≠ []) →
        rest <:+ a :: comps ∧ (follow = true ∨ rest ≠ []) :=
      And.imp_left fun h => h.trans (List.suffix_cons _ _)
    cases t.meets cur a with
    | skip hs =>
      rw [descend_skip hs] at hd
      exact hweak (ih hd)
    | up hs =>
      subst hs
      rw [descend_dotdot] at hd
      split_ifs at hd
      exact hweak (ih hd)
    | missing ha hn =>
      rw [descend_none ha hn] at hd
      split_ifs at hd
    | dir ha i hn =>
      rw [descend_dir ha hn] at hd
      exact hweak (ih hd)
    | link ha i tgt hn =>
      rw [descend_link ha hn] at hd
      split_ifs at hd with hlast
      obtain ⟨-, -, -, rfl⟩ := Stop.atLink.inj hd
      exact hweak ⟨List.suffix_refl _, by
        rw [not_and_or] at hlast
        exact hlast.symm.imp_left (by simp)⟩
    | leaf ha n hn hndir hnlink =>
      rw [descend_leaf ha hn hndir hnlink] at hd
      split_ifs at hd

end Tree

end Seahaven.Host

namespace Seahaven.Vfs

open Host OsStr

variable [Unicode] {v : Vfs} {h : Host} {m : Mount} {q q' : VirtualPath} {r : HostPath}
  {c : OsStr} {pending comps : List OsStr}

/-! ## One component -/

def Ungrammatical (c : OsStr) : Prop := IsPlain c ∧ ¬ IsComponent c

theorem exact_beneath (hm : m ∈ v.table.mounts) (hplain : m.shadowsNested = false)
    (hq : q.components = m.at.components ++ r) : v.locateExact q = .ok ⟨m, r, q⟩ := by
  refine locateExact_eq_ok.2 ⟨MountTable.resolve_eq_some.2 ⟨hm, hq, fun m' hm' hpre => ?_⟩, rfl⟩
  have hat : m.at.components <+: q.components := hq ▸ List.prefix_append _ _
  rcases List.prefix_or_prefix_of_prefix hpre hat with h | h
  · exact h
  · by_cases he : m'.at = m.at
    · rw [he]
    · have hbelow := (MountTable.shadowsNested_iff hm).2 ⟨m', hm', he, h⟩
      rw [hplain] at hbelow
      cases hbelow

theorem resolve_plain (hc : Queued c) (hp : IsPlain c) :
    (∃ hcomp : IsComponent c, q.resolve c = .ok (q.push c hcomp)) ∨
      Ungrammatical c ∧ ∃ e, q.resolve c = .error e := by
  by_cases hcomp : IsComponent c
  · exact Or.inl ⟨hcomp, q.resolve_component hcomp⟩
  · refine Or.inr ⟨⟨hp, hcomp⟩, ?_⟩
    cases hr : q.resolve c with
    | error e => exact ⟨e, rfl⟩
    | ok q' =>
      obtain ⟨h, -⟩ | ⟨h, -⟩ | ⟨h, -⟩ := resolve_queued hc hr
      · exact absurd h hp.2.1
      · exact absurd h hp.2.2
      · exact absurd h hcomp

section Step

variable {followFinal : Bool} {l : Located}

theorem trace_refused {e : PathError} (hq : q.resolve c = .error e) :
    v.trace h followFinal q (c :: pending) = .failed (invalidPath e) := by
  rw [trace, hq]

theorem trace_last (hq : q.resolve c = .ok q') (hl : v.locateExact q' = .ok l) :
    v.trace h false q [c] = .reached q' := by
  rw [trace, hq]
  dsimp only
  rw [hl]
  dsimp only
  rw [if_neg (by simp), trace]

end Step

/-! ## One scan -/

variable (v h m) in
/-- Which end of a scan belongs to which end of the host's walk. -/
inductive Ends : Stop → Scanned → Prop
  | arrived {s : HostPath} {q : VirtualPath} (hq : q.components = m.at.components ++ s) :
      Ends (.arrived s) (.reached q)
  | link {dir : HostPath} {c target : OsStr} {rest : List OsStr} {q : VirtualPath}
      (hq : q.components = m.at.components ++ (dir ++ [c]))
      (hlink : (h.tree m.dir.tree).linkAt (dir ++ [c]) = some target) (hclear : v.ClearAbove h q)
      (hrest : ∀ c ∈ rest, c = [] ∨ Queued c) :
      Ends (.atLink dir c target rest) (.atLink ⟨m, dir ++ [c], q⟩ (rest.filter (· ≠ [])))
  | beneath {cur s : HostPath} {c : OsStr} {rest : List OsStr} {e : Errno} {q : VirtualPath}
      (he : e = .noent ∨ e = .notdir) (hq : q.components = m.at.components ++ s)
      (habsent : (h.tree m.dir.tree).isPresent s = false) :
      Ends (.stuck cur c rest e) (.reached q)
  | loose {cur : HostPath} {c : OsStr} {rest : List OsStr} {e : Errno} {scanned : Scanned}
      (he : e = .noent ∨ e = .notdir) (hrest : onlyNames rest = false) :
      Ends (.stuck cur c rest e) scanned
  | left {scanned : Scanned} : Ends .escaped scanned

variable {ff : Bool}

section Scan

variable (hm : m ∈ v.table.mounts) (hplain : m.shadowsNested = false)

include hm hplain

theorem trace_names (hq : q.components = m.at.components ++ r)
    (hnone : ∀ c s, (h.tree m.dir.tree).isPresent (r ++ c :: s) = false)
    (hpend : ∀ c ∈ pending, Queued c ∧ IsPlain c) :
    (∃ q', v.trace h ff q pending = .reached q' ∧
        q'.components = m.at.components ++ (r ++ pending)) ∨
      (∃ e, v.trace h ff q pending = .failed e) ∧ ∃ c ∈ pending, Ungrammatical c := by
  induction pending generalizing q r with
  | nil => exact Or.inl ⟨q, rfl, by rw [List.append_nil, hq]⟩
  | cons c pending ih =>
    obtain ⟨⟨hc, hp⟩, hrest⟩ := List.forall_mem_cons.1 hpend
    rcases resolve_plain (q := q) hc hp with ⟨hcomp, hres⟩ | ⟨href, e, hres⟩
    · have hq' : (q.push c hcomp).components = m.at.components ++ (r ++ [c]) := by
        rw [VirtualPath.components_push, hq, List.append_assoc]
      have hlink : (⟨m, r ++ [c], q.push c hcomp⟩ : Located).link h = none := by
        rw [Located.link]
        by_contra hne
        obtain ⟨target, ht⟩ := Option.ne_none_iff_exists'.1 hne
        have := Tree.isPresent_of_linkAt ht
        rw [hnone c []] at this
        cases this
      rw [trace_step hres (exact_beneath hm hplain hq') hlink]
      rcases ih hq' (fun d s => by simpa using hnone c (d :: s)) hrest with
        ⟨q', hr, hcomps⟩ | ⟨hf, d, hd, href⟩
      · exact Or.inl ⟨q', hr, by simpa using hcomps⟩
      · exact Or.inr ⟨hf, d, List.mem_cons_of_mem _ hd, href⟩
    · exact Or.inr ⟨⟨_, trace_refused hres⟩, c, List.mem_cons_self, href⟩

theorem ends_stuck {e : Errno}
    (he : e = .noent ∨ e = .notdir) (hq : q.components = m.at.components ++ r)
    (hnone : ∀ c s, (h.tree m.dir.tree).isPresent (r ++ c :: s) = false)
    (hrest : ∀ c ∈ rest, c = [] ∨ Queued c) :
    Ends v h m (.stuck cur c rest e) (v.trace h ff q (rest.filter (· ≠ []))) ∨
      (∃ e, v.trace h ff q (rest.filter (· ≠ [])) = .failed e) ∧ ∃ c ∈ rest, Ungrammatical c := by
  cases hnames : onlyNames rest with
  | false => exact Or.inl (.loose he hnames)
  | true =>
    simp only [onlyNames, Bool.and_eq_true, List.any_eq_true, List.all_eq_true,
      decide_eq_true_eq] at hnames
    obtain ⟨⟨d, hd, hdne⟩, hall⟩ := hnames
    have hpend : ∀ c ∈ rest.filter (· ≠ []), Queued c ∧ IsPlain c := by
      intro c hc
      obtain ⟨hc, hne⟩ := List.mem_filter.1 hc
      have hne : c ≠ [] := by simpa using hne
      exact ⟨(hrest c hc).resolve_left hne, hne, (hall c hc).1, (hall c hc).2⟩
    rcases trace_names hm hplain hq hnone hpend with ⟨q', hr, hcomps⟩ | ⟨hf, c, hc, href⟩
    · rw [hr]
      refine Or.inl (.beneath he hcomps ?_)
      have hmem : d ∈ rest.filter (· ≠ []) := List.mem_filter.2 ⟨hd, by simpa using hdne⟩
      obtain ⟨a, s, hs⟩ := List.exists_cons_of_ne_nil (List.ne_nil_of_mem hmem)
      rw [hs]
      exact hnone a s
    · exact Or.inr ⟨hf, c, (List.mem_filter.1 hc).1, href⟩

/-- **One scan.** A scan of the components the host walks ends as the host's walk does. Where the
last link is not to be followed, no separator comes after it. -/
theorem trace_ends (hcomps : ∀ c ∈ comps, c = [] ∨ Queued c)
    (hlast : ff = true ∨ comps.getLast? ≠ some [])
    (hq : q.components = m.at.components ++ r) (hclear : v.Clear h q)
    (hdir : (h.tree m.dir.tree).isDir r = true) :
    Ends v h m ((h.tree m.dir.tree).descend [] ff r comps)
        (v.trace h ff q (comps.filter (· ≠ []))) ∨
      (∃ e, v.trace h ff q (comps.filter (· ≠ [])) = .failed e) ∧ ∃ c ∈ comps, Ungrammatical c := by
  induction comps generalizing q r with
  | nil => exact Or.inl (.arrived hq)
  | cons c comps ih =>
    obtain ⟨hc, hrest⟩ := List.forall_mem_cons.1 hcomps
    have hlast' : ff = true ∨ comps.getLast? ≠ some [] := by
      refine hlast.imp_right fun hne he => hne ?_
      rw [List.getLast?_cons, he]
      rfl
    have hweak : ∀ {S : Stop} {T : Scanned},
        Ends v h m S T ∨ (∃ e, T = .failed e) ∧ (∃ c ∈ comps, Ungrammatical c) →
          Ends v h m S T ∨ (∃ e, T = .failed e) ∧ ∃ d ∈ c :: comps, Ungrammatical d :=
      fun h => h.imp_right fun ⟨hf, d, hd, href⟩ => ⟨hf, d, List.mem_cons_of_mem _ hd, href⟩
    by_cases hnil : c = []
    · rw [Tree.descend_skip (Or.inl hnil), List.filter_cons_of_neg (by simp [hnil])]
      exact hweak (ih hrest hlast' hq hclear hdir)
    have hqueue : Queued c := hc.resolve_left hnil
    rw [List.filter_cons_of_pos (by simp [hnil])]
    have hexact := exact_beneath hm hplain hq
    by_cases hdot : c = dot
    · subst hdot
      have hlink : (⟨m, r, q⟩ : Located).link h = none := by
        rw [← linkAt_of_exact hexact]
        exact hclear q (List.prefix_refl _)
      rw [Tree.descend_skip (Or.inr rfl), trace_step q.resolve_dot hexact hlink]
      exact hweak (ih hrest hlast' hq hclear hdir)
    by_cases hdotdot : c = dotdot
    · subst hdotdot
      rw [Tree.descend_dotdot]
      by_cases hroot : r = []
      · rw [if_pos hroot]
        exact Or.inl .left
      · rw [if_neg hroot]
        obtain ⟨p, hp⟩ : ∃ p, q.parent = some p := by
          unfold VirtualPath.parent
          rw [if_neg (by simp [VirtualPath.isRoot, hq, hroot])]
          exact ⟨_, rfl⟩
        have hpc : p.components = m.at.components ++ r.dropLast := by
          unfold VirtualPath.parent at hp
          split_ifs at hp
          obtain rfl := Option.some.inj hp
          show q.components.dropLast = _
          rw [hq, List.dropLast_append_of_ne_nil hroot]
        have hpclear := hclear.mono (prefix_of_parent hp)
        have hpexact := exact_beneath hm hplain hpc
        have hlink : (⟨m, r.dropLast, p⟩ : Located).link h = none := by
          rw [← linkAt_of_exact hpexact]
          exact hpclear p (List.prefix_refl _)
        rw [trace_step (VirtualPath.resolve_dotdot_of_parent hp) hpexact hlink]
        refine hweak (ih hrest hlast' hpc hpclear ?_)
        refine Tree.isDir_above (List.dropLast_prefix _) (fun he => ?_) (Tree.isPresent_of_isDir hdir)
        have := congrArg List.length he
        have := List.length_pos_of_ne_nil hroot
        rw [List.length_dropLast] at *
        omega
    have hp : IsPlain c := ⟨hnil, hdot, hdotdot⟩
    rcases resolve_plain (q := q) hqueue hp with ⟨hcomp, hres⟩ | ⟨href, e, hres⟩
    · have hqc : (q.push c hcomp).components = m.at.components ++ (r ++ [c]) := by
        rw [VirtualPath.components_push, hq, List.append_assoc]
      have hcexact := exact_beneath hm hplain hqc
      have habove : v.ClearAbove h (q.push c hcomp) := ClearAbove.push hclear
      have hleaf : ∀ e : Errno, e = .noent ∨ e = .notdir →
          (h.tree m.dir.tree).isDir (r ++ [c]) = false →
          (h.tree m.dir.tree).linkAt (r ++ [c]) = none →
          (h.tree m.dir.tree).descend [] ff r (c :: comps) =
            (if comps = [] then .arrived (r ++ [c]) else .stuck r c comps e) →
          Ends v h m ((h.tree m.dir.tree).descend [] ff r (c :: comps))
              (v.trace h ff q (c :: comps.filter (· ≠ []))) ∨
            (∃ e, v.trace h ff q (c :: comps.filter (· ≠ [])) = .failed e) ∧
              ∃ d ∈ c :: comps, Ungrammatical d := by
        intro e he hndir hnlink hd
        rw [hd, trace_step hres hcexact hnlink]
        by_cases hcnil : comps = []
        · subst hcnil
          exact Or.inl (.arrived hqc)
        · rw [if_neg hcnil]
          refine hweak (ends_stuck hm hplain he hqc (fun d s => ?_) hrest)
          by_contra hpres
          have hpres : (h.tree m.dir.tree).isPresent (r ++ [c] ++ d :: s) = true := by
            simpa using hpres
          rw [Tree.isDir_above (List.prefix_append (r ++ [c]) (d :: s)) (by simp) hpres] at hndir
          cases hndir
      cases (h.tree m.dir.tree).meets r c with
      | skip hs => exact (hs.elim hnil hdot).elim
      | up hs => exact (hdotdot hs).elim
      | missing _ hn =>
        refine hleaf .noent (Or.inl rfl) (Tree.isDir_eq_false_of_none hn) ?_ (Tree.descend_none hp hn)
        rw [Tree.linkAt, hn]
      | dir _ i hn =>
        have hcdir : (h.tree m.dir.tree).isDir (r ++ [c]) = true := Tree.isDir_iff.2 ⟨i, hn⟩
        rw [Tree.descend_dir hp hn, trace_step hres hcexact (Tree.linkAt_of_isDir hcdir)]
        exact hweak (ih hrest hlast' hqc
          (clear_of_link habove hcexact (Tree.linkAt_of_isDir hcdir)) hcdir)
      | link _ i target hn =>
        have hlink : (h.tree m.dir.tree).linkAt (r ++ [c]) = some target :=
          Tree.linkAt_eq_some.2 ⟨i, hn⟩
        rw [Tree.descend_link hp hn]
        by_cases hend : comps = [] ∧ ff = false
        · obtain ⟨rfl, rfl⟩ := hend
          rw [if_pos ⟨rfl, rfl⟩, List.filter_nil, trace_last hres hcexact]
          exact Or.inl (.arrived hqc)
        · have hgoes : comps.filter (· ≠ []) ≠ [] ∨ ff = true := by
            rw [or_iff_not_imp_right]
            intro hff
            have hne : comps ≠ [] := fun hnil => hend ⟨hnil, by simpa using hff⟩
            have hmem := List.getLast_mem hne
            refine List.ne_nil_of_mem (List.mem_filter.2 ⟨hmem, ?_⟩)
            have := hlast'.resolve_left hff
            rw [List.getLast?_eq_some_getLast hne] at this
            simpa using this
          rw [if_neg hend, trace_link hres hcexact hlink hgoes]
          exact Or.inl (.link hqc hlink habove hrest)
      | leaf _ n hn hndir hnlink =>
        refine hleaf .notdir (Or.inr rfl) (Tree.isDir_eq_false_of_node hn hndir) ?_
          (Tree.descend_leaf hp hn hndir hnlink)
        by_contra hne
        obtain ⟨target, ht⟩ := Option.ne_none_iff_exists'.1 hne
        obtain ⟨i, hi⟩ := Tree.linkAt_eq_some.1 ht
        rw [hn] at hi
        obtain rfl := Option.some.inj hi
        exact hnlink target rfl
    · exact Or.inr ⟨⟨_, trace_refused hres⟩, c, List.mem_cons_self, href⟩

end Scan

/-! ## Both walks -/

def BadTarget (target : OsStr) : Prop :=
  target.isUtf8 = false ∨ ∃ c ∈ target.components, Ungrammatical c

variable (h m) in
/-- What the host's walk and the namespace's answer: `bad` is whether the grammar refuses something
that is looked up, `links` what the links hold that are followed. -/
inductive Outcome (firm : Bool) (links : List OsStr) (bad : Prop) :
    Except IoError HostPath → Except IoError Located → Prop
  | same {s : HostPath} {q : VirtualPath} (hq : q.components = m.at.components ++ s) :
      Outcome firm links bad (.ok s) (.ok ⟨m, s, q⟩)
  | refused {W : Except IoError HostPath} {e : IoError} (hbad : bad) :
      Outcome firm links bad W (.error e)
  | neither {e : IoError} : Outcome firm links bad (.error (.os .loop)) (.error e)
  | absent {e : Errno} {l : Located} (he : e = .noent ∨ e = .notdir) (hl : l.mount = m)
      (habsent : (h.tree m.dir.tree).isPresent l.relative = false) :
      Outcome firm links bad (.error (.os e)) (.ok l)
  | loose {e : Errno} {F : Except IoError Located} (he : e = .noent ∨ e = .notdir)
      (hfirm : firm = false) : Outcome firm links bad (.error (.os e)) F
  | left {F : Except IoError Located}
      (hleft : firm = false ∨ ∃ target ∈ links, target.isAbsolute = true) :
      Outcome firm links bad (.error escapeAttempt) F

theorem Outcome.mono {firm : Bool} {links links' : List OsStr} {bad bad' : Prop}
    {W : Except IoError HostPath} {F : Except IoError Located}
    (hO : Outcome h m firm links bad W F) (hlinks : links ⊆ links') (hbad : bad → bad') :
    Outcome h m firm links' bad' W F := by
  cases hO with
  | same hq => exact .same hq
  | refused hb => exact .refused (hbad hb)
  | neither => exact .neither
  | absent he hl habsent => exact .absent he hl habsent
  | loose he hfirm => exact .loose he hfirm
  | left hleft => exact .left (hleft.imp_right fun ⟨t, ht, habs⟩ => ⟨t, hlinks ht, habs⟩)

variable {path : VirtualPath}

theorem outcome_of_ends (hm : m ∈ v.table.mounts) (hplain : m.shadowsNested = false)
    {S : Stop} {T : Scanned} {links : List OsStr} {bad : Prop}
    (hT : v.scan h ff none q pending = T)
    (hS : (h.tree m.dir.tree).descend [] ff r comps = S) (hends : Ends v h m S T)
    (hno : ∀ dir c target rest, S ≠ .atLink dir c target rest) :
    Outcome h m ((h.tree m.dir.tree).firm ff budget r comps) links bad
      ((h.tree m.dir.tree).walk [] ff budget r comps) (v.follow h path ff budget q pending) := by
  rw [Tree.walk, hS]
  cases hends with
  | arrived hs =>
    rw [follow_reached hT, exact_beneath hm hplain hs]
    exact .same hs
  | link _ _ _ _ => exact absurd rfl (hno _ _ _ _)
  | beneath he hs habsent =>
    rw [follow_reached hT, exact_beneath hm hplain hs]
    exact .absent he rfl habsent
  | loose he hrest => exact .loose he (by rw [Tree.firm, hS]; exact hrest)
  | left => exact .left (Or.inl (by rw [Tree.firm, hS]))

theorem linkBase_relative {dir : HostPath} (habs : target.isAbsolute = false)
    (hq : q.components = m.at.components ++ (dir ++ [c])) :
    (linkBase ⟨m, dir ++ [c], q⟩ target).components = m.at.components ++ dir := by
  rw [linkBase, if_neg (by simp [habs])]
  unfold VirtualPath.parent
  rw [if_neg (by simp [VirtualPath.isRoot, hq])]
  show q.components.dropLast = _
  rw [hq, ← List.append_assoc, List.dropLast_concat]

/-- **Lockstep.** What the host's walk and the namespace's answer from a directory of a mount. -/
theorem follow_outcome (hm : m ∈ v.table.mounts) (hplain : m.shadowsNested = false)
    (hcomps : ∀ c ∈ comps, c = [] ∨ Queued c)
    (hlast : ff = true ∨ comps.getLast? ≠ some []) (hq : q.components = m.at.components ++ r)
    (hclear : v.Clear h q)
    (hdir : (h.tree m.dir.tree).isDir r = true)
    (hspelled : ∀ t ∈ v.targets h ff budget q (comps.filter (· ≠ [])),
      ∀ c ∈ t.components, Spelled c) :
    Outcome h m ((h.tree m.dir.tree).firm ff budget r comps)
      (v.targets h ff budget q (comps.filter (· ≠ [])))
      ((∃ c ∈ comps, Ungrammatical c) ∨
        ∃ t ∈ v.targets h ff budget q (comps.filter (· ≠ [])), BadTarget t)
      ((h.tree m.dir.tree).walk [] ff budget r comps)
      (v.follow h path ff budget q (comps.filter (· ≠ []))) := by
  induction budget generalizing q r comps with
  | zero =>
    have hqueued : ∀ c ∈ comps.filter (· ≠ []), Queued c := fun c hc =>
      (hcomps c (List.mem_filter.1 hc).1).resolve_left (by simpa using (List.mem_filter.1 hc).2)
    have hends := trace_ends hm hplain hcomps hlast hq hclear hdir
    rw [← scan_eq_trace hqueued hclear cursorOn_none] at hends
    rcases hends with hends | ⟨⟨e, hf⟩, hbad⟩
    · generalize hT : v.scan h ff none q (comps.filter (· ≠ [])) = T at hends
      generalize hS : (h.tree m.dir.tree).descend [] ff r comps = S at hends
      cases hends with
      | link hs hlink habove hrest =>
        rw [follow_atLink_zero hT, Tree.walk, hS]
        exact .neither
      | arrived hs => exact outcome_of_ends hm hplain hT hS (.arrived hs) (by simp)
      | beneath he hs ha => exact outcome_of_ends hm hplain hT hS (.beneath he hs ha) (by simp)
      | loose he hrest => exact outcome_of_ends hm hplain hT hS (.loose he hrest) (by simp)
      | left => exact outcome_of_ends hm hplain hT hS .left (by simp)
    · rw [follow_failed hf]
      exact .refused (Or.inl hbad)
  | succ budget ih =>
    have hqueued : ∀ c ∈ comps.filter (· ≠ []), Queued c := fun c hc =>
      (hcomps c (List.mem_filter.1 hc).1).resolve_left (by simpa using (List.mem_filter.1 hc).2)
    have hends := trace_ends hm hplain hcomps hlast hq hclear hdir
    rw [← scan_eq_trace hqueued hclear cursorOn_none] at hends
    rcases hends with hends | ⟨⟨e, hf⟩, hbad⟩
    · generalize hT : v.scan h ff none q (comps.filter (· ≠ [])) = T at hends
      generalize hS : (h.tree m.dir.tree).descend [] ff r comps = S at hends
      cases hends with
      | arrived hs => exact outcome_of_ends hm hplain hT hS (.arrived hs) (by simp)
      | beneath he hs ha => exact outcome_of_ends hm hplain hT hS (.beneath he hs ha) (by simp)
      | loose he hrest => exact outcome_of_ends hm hplain hT hS (.loose he hrest) (by simp)
      | left => exact outcome_of_ends hm hplain hT hS .left (by simp)
      | @link dir c target rest q' hs hlink habove hrest =>
        have hl := exact_beneath hm hplain hs
        have htargets := targets_atLink budget hT hl hlink
        have hfirst : target ∈ v.targets h ff (budget + 1) q (comps.filter (· ≠ [])) := by
          rw [htargets]
          exact List.mem_cons_self
        have hpending : target.components ++ rest.filter (· ≠ []) =
            (target.split ++ rest).filter (· ≠ []) := by
          rw [List.filter_append]
          rfl
        rw [Tree.walk, hS, follow_atLink_succ hT, linkTarget_eq hl hlink]
        dsimp only
        by_cases habs : target.isAbsolute = true
        · rw [if_pos habs]
          exact .left (Or.inr ⟨target, hfirst, habs⟩)
        rw [if_neg habs]
        by_cases hutf : target.isUtf8 = true
        · rw [if_pos hutf]
          dsimp only
          have hfirm : (h.tree m.dir.tree).firm ff (budget + 1) r comps =
              (h.tree m.dir.tree).firm ff budget dir (target.split ++ rest) := by
            rw [Tree.firm, hS]
            simp [habs]
          have hbase := linkBase_relative (by simpa using habs) hs
          rw [hfirm, hpending]
          rw [htargets, hpending] at hspelled ⊢
          have hcomps' : ∀ c ∈ target.split ++ rest, c = [] ∨ Queued c := by
            intro d hd
            by_cases hnil : d = []
            · exact Or.inl hnil
            · rcases List.mem_append.1 hd with hd | hd
              · refine Or.inr ⟨hnil, slash_not_mem_of_mem_split hd, ?_⟩
                exact hspelled target List.mem_cons_self d (mem_components.2 ⟨hd, hnil⟩)
              · exact hrest d hd
          obtain ⟨hsuffix, hmore⟩ := Tree.suffix_of_atLink hS
          have hlast' : ff = true ∨ (target.split ++ rest).getLast? ≠ some [] := by
            by_cases hff : ff = true
            · exact Or.inl hff
            · have hne := hmore.resolve_left hff
              obtain ⟨a, rfl⟩ := hsuffix
              rw [List.getLast?_append_of_ne_nil _ hne] at hlast ⊢
              exact hlast
          refine (ih hcomps' hlast' hbase (clear_linkBase habove) ?_ fun t ht =>
            hspelled t (List.mem_cons_of_mem _ ht)).mono (List.subset_cons_self _ _) ?_
          · exact Tree.isDir_parent (Tree.isPresent_of_linkAt hlink)
          · rintro (⟨d, hd, hbad⟩ | ⟨t, ht, hbad⟩)
            · rcases List.mem_append.1 hd with hd | hd
              · exact Or.inr ⟨target, List.mem_cons_self, Or.inr
                  ⟨d, mem_components.2 ⟨hd, hbad.1.1⟩, hbad⟩⟩
              · exact Or.inl ⟨d, hsuffix.subset hd, hbad⟩
            · exact Or.inr ⟨t, List.mem_cons_of_mem _ ht, hbad⟩
        · rw [if_neg hutf]
          exact .refused (Or.inr ⟨target, hfirst, Or.inl (by simpa using hutf)⟩)
    · rw [follow_failed hf]
      exact .refused (Or.inl hbad)

/-! ## From the virtual root -/

theorem trace_to_mount {followFinal : Bool} {b : List OsStr} (hm : m ∈ v.table.mounts)
    (habove : v.ClearAbove h m.at) (hq : m.at.components = q.components ++ b) :
    v.trace h followFinal q (b ++ rest) = v.trace h followFinal m.at rest := by
  induction b generalizing q with
  | nil =>
    obtain rfl : m.at = q := VirtualPath.ext (by rw [hq, List.append_nil])
    rfl
  | cons c b ih =>
    have hcomp : IsComponent c := m.at.valid c (by rw [hq]; simp)
    have hqc : m.at.components = (q.push c hcomp).components ++ b := by
      rw [VirtualPath.components_push, hq, List.append_assoc]
      rfl
    have hpre : (q.push c hcomp).components <+: m.at.components := hqc ▸ List.prefix_append _ _
    rw [List.cons_append, ← ih hqc]
    cases hl : v.locateExact (q.push c hcomp) with
    | ok l =>
      refine trace_step (q.resolve_component hcomp) hl ?_
      by_cases hat : q.push c hcomp = m.at
      · rw [hat, Vfs.locateExact, MountTable.resolve_at hm] at hl
        obtain rfl := Except.ok.inj hl
        exact link_of_relative_nil rfl
      · rw [← linkAt_of_exact hl]
        exact habove _ hpre hat
    | error e =>
      have hat : q.push c hcomp ≠ m.at := by
        intro hat
        rw [hat, Vfs.locateExact, MountTable.resolve_at hm] at hl
        cases hl
      have hb : b ≠ [] := by
        rintro rfl
        exact hat (VirtualPath.ext (by rw [hqc, List.append_nil]))
      have hshape : b ++ rest ≠ [] ∧ (q.push c hcomp).isRoot = false ∧
          v.table.hasMountBelow (q.push c hcomp) = true :=
        ⟨by simp [hb], by simp [VirtualPath.isRoot],
          MountTable.hasPointBelow_iff.2 ⟨m, hm, Ne.symm hat, hpre⟩⟩
      rw [trace, q.resolve_component hcomp]
      dsimp only
      rw [hl]
      dsimp only
      rw [if_pos hshape]

theorem follow_congr {followFinal : Bool} {hops : Nat} {pending' : List OsStr}
    (hs : v.scan h followFinal none q pending = v.scan h followFinal none q' pending') :
    v.follow h path followFinal hops q pending = v.follow h path followFinal hops q' pending' := by
  cases hops <;> rw [follow, follow, hs]

theorem targets_congr {followFinal : Bool} {hops : Nat} {pending' : List OsStr}
    (hs : v.scan h followFinal none q pending = v.scan h followFinal none q' pending') :
    v.targets h followFinal hops q pending = v.targets h followFinal hops q' pending' := by
  cases hops with
  | zero => rfl
  | succ hops => rw [targets, targets, hs]

/-- **The host's walk and the namespace's**, for a path governed by a mount that shadows no other
and has no link above it. -/
theorem locate_outcome {p : VirtualPath} (hm : m ∈ v.table.mounts)
    (hplain : m.shadowsNested = false) (habove : v.ClearAbove h m.at)
    (hp : p.components = m.at.components ++ r)
    (hspelled : ∀ t ∈ v.targetsOf p ff h, ∀ c ∈ t.components, Spelled c) :
    Outcome h m ((h.tree m.dir.tree).firm ff maxSymlinkHops [] r) (v.targetsOf p ff h)
      (∃ t ∈ v.targetsOf p ff h, BadTarget t)
      ((h.tree m.dir.tree).walk [] ff maxSymlinkHops [] r) (v.locate p ff h) := by
  have hcomp : ∀ c ∈ r, IsComponent c := fun c hc =>
    p.valid c (hp ▸ List.mem_append_right _ hc)
  have hfilter : r.filter (· ≠ []) = r :=
    List.filter_eq_self.2 fun c hc => by simpa using (hcomp c hc).ne_nil
  have hroot : v.Clear h m.at := by
    refine clear_iff.2 ⟨habove, ?_⟩
    rw [linkAt, Vfs.locateExact, MountTable.resolve_at hm]
    exact link_of_relative_nil rfl
  have hscan : v.scan h ff none .root p.components = v.scan h ff none m.at r := by
    rw [scan_eq_trace (fun c hc => (p.valid c hc).queued) clear_root cursorOn_none,
      scan_eq_trace (fun c hc => (hcomp c hc).queued) hroot cursorOn_none, hp]
    exact trace_to_mount hm habove rfl
  have htargets : v.targetsOf p ff h = v.targets h ff maxSymlinkHops m.at (r.filter (· ≠ [])) := by
    rw [hfilter]
    exact targets_congr hscan
  have hlocate : v.locate p ff h = v.follow h p ff maxSymlinkHops m.at (r.filter (· ≠ [])) := by
    rw [hfilter]
    exact follow_congr hscan
  rw [hlocate]
  rw [htargets] at hspelled ⊢
  refine (follow_outcome hm hplain (fun c hc => Or.inr (hcomp c hc).queued)
    (Or.inr fun he => (hcomp [] (List.mem_of_getLast? he)).ne_nil rfl) (by rw [List.append_nil])
    hroot Tree.isDir_nil hspelled).mono (List.Subset.refl _) ?_
  rintro (⟨c, hc, hbad⟩ | hbad)
  · exact absurd (hcomp c hc) hbad.2
  · exact hbad

/-! ## A namespace of one mount -/

theorem mem_of_one (hone : v.table.mounts = [m]) : m ∈ v.table.mounts := by
  rw [hone]
  exact List.mem_singleton_self m

theorem plain_of_one (hone : v.table.mounts = [m]) : m.shadowsNested = false := by
  rw [Bool.eq_false_iff]
  intro hs
  obtain ⟨m', hm', hne, -⟩ := (MountTable.shadowsNested_iff (mem_of_one hone)).1 hs
  rw [hone, List.mem_singleton] at hm'
  exact hne (by rw [hm'])

theorem above_of_one (hone : v.table.mounts = [m]) : v.ClearAbove h m.at := by
  intro q hq hne
  cases hl : v.locateExact q with
  | error e => rw [linkAt, hl]
  | ok l =>
    have hmem := mem_of_locateExact hl
    rw [hone, List.mem_singleton] at hmem
    have hcomp := components_of_locateExact hl
    rw [hmem] at hcomp
    refine absurd (VirtualPath.ext (hq.eq_of_length (le_antisymm hq.length_le ?_))) hne
    rw [hcomp, List.length_append]
    omega

end Seahaven.Vfs
