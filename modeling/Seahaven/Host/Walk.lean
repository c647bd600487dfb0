import Seahaven.Host.Tree

/-!
# The host's own path walk

How the operating system follows a path beneath an open directory, as `cap-std` asks it to
(`openat2` with `RESOLVE_BENEATH`): relative links are followed, a link to an absolute path or a
climb above the directory is refused, and at most forty links are followed.

1. `descend` walks plain components and ends at the first link it has to follow.
2. `walk` follows that link, for as long as its budget of links lasts.
-/

namespace Seahaven.Host

open OsStr

def maxSymlinks : Nat := 40

/-- `cap_primitives::fs::errors::escape_attempt`. -/
def escapeAttempt : IoError :=
  .custom .permissionDenied (os "a path led outside of the filesystem")

/-- How a walk along plain components ends. -/
inductive Stop
  /-- It names `p`. Only the last component may name nothing. -/
  | arrived (p : HostPath)
  /-- It climbed above the directory it started beneath. -/
  | escaped
  /-- At the directory `cur` the component `c` names nothing, or nothing to walk through. -/
  | stuck (cur : HostPath) (c : OsStr) (rest : List OsStr) (e : Errno)
  /-- In the directory `cur` it came to a link it has to follow. -/
  | atLink (cur : HostPath) (c : OsStr) (target : OsStr) (rest : List OsStr)
  deriving DecidableEq

/-- The same end, with `s` left to walk as well. -/
def Stop.extend (s : List OsStr) : Stop → Stop
  | .arrived p => .arrived p
  | .escaped => .escaped
  | .stuck cur c rest e => .stuck cur c (rest ++ s) e
  | .atLink cur c target rest => .atLink cur c target (rest ++ s)

/-- A component that is a name: neither empty, `.` nor `..`. -/
def IsPlain (c : OsStr) : Prop := c ≠ [] ∧ c ≠ dot ∧ c ≠ dotdot

instance (c : OsStr) : Decidable (IsPlain c) := inferInstanceAs (Decidable (_ ∧ _ ∧ _))

namespace Tree

/-- Walks components from the directory `cur` beneath `root`. -/
def descend (t : Tree) (root : HostPath) (follow : Bool) (cur : HostPath) :
    List OsStr → Stop
  | [] => .arrived cur
  | c :: rest =>
    if c = [] ∨ c = dot then
      descend t root follow cur rest
    else if c = dotdot then
      if cur = root then .escaped else descend t root follow cur.dropLast rest
    else
      match t.node (cur ++ [c]) with
      | none => if rest = [] then .arrived (cur ++ [c]) else .stuck cur c rest .noent
      | some ⟨_, .dir⟩ => descend t root follow (cur ++ [c]) rest
      | some ⟨_, .link target⟩ =>
        if rest = [] ∧ follow = false then .arrived (cur ++ [c]) else .atLink cur c target rest
      | some _ => if rest = [] then .arrived (cur ++ [c]) else .stuck cur c rest .notdir

/-- Walks components, following links while the budget lasts. -/
def walk (t : Tree) (root : HostPath) (follow : Bool) :
    Nat → HostPath → List OsStr → Except IoError HostPath
  | budget, cur, comps =>
    match t.descend root follow cur comps with
    | .arrived p => .ok p
    | .escaped => .error escapeAttempt
    | .stuck _ _ _ e => .error (.os e)
    | .atLink dir _ target rest =>
      match budget with
      | 0 => .error (.os .loop)
      | budget + 1 =>
        if target.isAbsolute then .error escapeAttempt
        else walk t root follow budget dir (target.split ++ rest)

/-- Where a relative path leads beneath the directory `root`. The empty path names nothing, and a
component with a NUL in it does not reach the kernel. -/
def lookup (t : Tree) (root : HostPath) (follow : Bool) (rel : List OsStr) :
    Except IoError HostPath :=
  if rel = [] then .error (.os .noent)
  else if ∃ c ∈ rel, .chr '\x00' ∈ c then .error (.os .inval)
  else t.walk root follow maxSymlinks root rel

variable {t : Tree} {root cur : HostPath} {follow : Bool}

/-! ## One component -/

@[simp] theorem descend_nil : t.descend root follow cur [] = .arrived cur := rfl

theorem descend_skip {c : OsStr} {rest : List OsStr} (h : c = [] ∨ c = dot) :
    t.descend root follow cur (c :: rest) = t.descend root follow cur rest := by
  rw [descend, if_pos h]

theorem descend_dotdot {rest : List OsStr} : t.descend root follow cur (dotdot :: rest) =
    if cur = root then .escaped else t.descend root follow cur.dropLast rest := by
  rw [descend, if_neg (by decide), if_pos rfl]

variable {target : OsStr}

section Plain

variable {c : OsStr} {rest : List OsStr} (hc : IsPlain c)

include hc

theorem descend_none (h : t.node (cur ++ [c]) = none) : t.descend root follow cur (c :: rest) =
    if rest = [] then .arrived (cur ++ [c]) else .stuck cur c rest .noent := by
  rw [descend, if_neg (not_or.2 ⟨hc.1, hc.2.1⟩), if_neg hc.2.2, h]

theorem descend_dir {i : Nat} (h : t.node (cur ++ [c]) = some ⟨i, .dir⟩) :
    t.descend root follow cur (c :: rest) = t.descend root follow (cur ++ [c]) rest := by
  rw [descend, if_neg (not_or.2 ⟨hc.1, hc.2.1⟩), if_neg hc.2.2, h]

theorem descend_link {i : Nat}
    (h : t.node (cur ++ [c]) = some ⟨i, .link target⟩) :
    t.descend root follow cur (c :: rest) =
      if rest = [] ∧ follow = false then .arrived (cur ++ [c])
      else .atLink cur c target rest := by
  rw [descend, if_neg (not_or.2 ⟨hc.1, hc.2.1⟩), if_neg hc.2.2, h]

theorem descend_leaf {n : Node} (h : t.node (cur ++ [c]) = some n) (hdir : n.kind ≠ .dir)
    (hlink : ∀ target, n.kind ≠ .link target) : t.descend root follow cur (c :: rest) =
      if rest = [] then .arrived (cur ++ [c]) else .stuck cur c rest .notdir := by
  rw [descend, if_neg (not_or.2 ⟨hc.1, hc.2.1⟩), if_neg hc.2.2, h]
  obtain ⟨i, k⟩ := n
  cases k with
  | dir => exact absurd rfl hdir
  | link target => exact absurd rfl (hlink target)
  | file => rfl
  | special k => rfl

end Plain

/-- What a walk in the directory `cur` meets at a component. -/
inductive Meets (t : Tree) (cur : HostPath) (c : OsStr) : Prop
  | skip (h : c = [] ∨ c = dot)
  | up (h : c = dotdot)
  | missing (hc : IsPlain c) (h : t.node (cur ++ [c]) = none)
  | dir (hc : IsPlain c) (i : Nat) (h : t.node (cur ++ [c]) = some ⟨i, .dir⟩)
  | link (hc : IsPlain c) (i : Nat) (target : OsStr)
      (h : t.node (cur ++ [c]) = some ⟨i, .link target⟩)
  | leaf (hc : IsPlain c) (n : Node) (h : t.node (cur ++ [c]) = some n) (hdir : n.kind ≠ .dir)
      (hlink : ∀ target, n.kind ≠ .link target)

theorem meets (t : Tree) (cur : HostPath) (c : OsStr) : t.Meets cur c := by
  by_cases hskip : c = [] ∨ c = dot
  · exact .skip hskip
  by_cases hup : c = dotdot
  · exact .up hup
  have hc : IsPlain c := ⟨fun h => hskip (Or.inl h), fun h => hskip (Or.inr h), hup⟩
  cases hn : t.node (cur ++ [c]) with
  | none => exact .missing hc hn
  | some n =>
    obtain ⟨i, k⟩ := n
    cases k with
    | dir => exact .dir hc i hn
    | link target => exact .link hc i target hn
    | file => exact .leaf hc _ hn (by simp) (by simp)
    | special k => exact .leaf hc _ hn (by simp) (by simp)

/-! ## One walk after another -/

variable {p : HostPath}

theorem isDir_eq_false_of_node {n : Node} (h : t.node p = some n)
    (hk : n.kind ≠ .dir) : t.isDir p = false := by
  rw [isDir, h]
  simpa using hk

theorem isDir_eq_false_of_none (h : t.node p = none) : t.isDir p = false := by
  rw [isDir, h]
  rfl

variable {comps s : List OsStr}

theorem descend_append {follow' : Bool}
    (h : t.descend root follow cur comps = .arrived p) (hp : t.isDir p = true) :
    t.descend root follow' cur (comps ++ s) = t.descend root follow' p s := by
  induction comps generalizing cur with
  | nil =>
    obtain rfl : cur = p := by simpa using h
    rfl
  | cons c rest ih =>
    -- a walk that ends at anything but a directory ended at its last component
    have hlast : ∀ q : HostPath, t.isDir q = false → (if rest = [] then Stop.arrived q else
        .stuck cur c rest .noent) = .arrived p ∨ (if rest = [] then Stop.arrived q else
        .stuck cur c rest .notdir) = .arrived p → False := by
      intro q hq h
      split_ifs at h <;> simp at h
      rw [h, hp] at hq
      cases hq
    rw [List.cons_append]
    cases t.meets cur c with
    | skip hc =>
      rw [descend_skip hc] at h ⊢
      exact ih h
    | up hc =>
      subst hc
      rw [descend_dotdot] at h ⊢
      split_ifs at h ⊢
      exact ih h
    | missing hc hn =>
      rw [descend_none hc hn] at h
      exact (hlast _ (isDir_eq_false_of_none hn) (Or.inl h)).elim
    | dir hc i hn =>
      rw [descend_dir hc hn] at h ⊢
      exact ih h
    | link hc i target hn =>
      rw [descend_link hc hn] at h
      split_ifs at h
      obtain rfl := Stop.arrived.inj h
      rw [isDir_eq_false_of_node hn (by simp)] at hp
      cases hp
    | leaf hc n hn hdir hlink =>
      rw [descend_leaf hc hn hdir hlink] at h
      exact (hlast _ (isDir_eq_false_of_node hn hdir) (Or.inr h)).elim

theorem descend_append_stop {stop : Stop}
    (h : t.descend root true cur comps = stop) (hstop : ∀ p, stop ≠ .arrived p)
    (hs : follow = true ∨ s ≠ []) :
    t.descend root follow cur (comps ++ s) = stop.extend s := by
  subst h
  induction comps generalizing cur with
  | nil => exact absurd rfl (hstop cur)
  | cons d comps ih =>
    rw [List.cons_append]
    cases t.meets cur d with
    | skip hd =>
      rw [descend_skip hd] at hstop
      rw [descend_skip hd, descend_skip hd]
      exact ih hstop
    | up hd =>
      subst hd
      rw [descend_dotdot] at hstop
      rw [descend_dotdot, descend_dotdot]
      by_cases hroot : cur = root
      · rw [if_pos hroot, if_pos hroot]
        rfl
      · rw [if_neg hroot] at hstop
        rw [if_neg hroot, if_neg hroot]
        exact ih hstop
    | missing hd hn =>
      have hcomps : comps ≠ [] := by
        rintro rfl
        exact hstop _ (by rw [descend_none hd hn, if_pos rfl])
      rw [descend_none hd hn, descend_none hd hn, if_neg hcomps, if_neg (by simp [hcomps])]
      rfl
    | dir hd i hn =>
      rw [descend_dir hd hn] at hstop
      rw [descend_dir hd hn, descend_dir hd hn]
      exact ih hstop
    | link hd i tgt hn =>
      have hstep : t.descend root true cur (d :: comps) = .atLink cur d tgt comps := by
        rw [descend_link hd hn, if_neg (by simp)]
      rw [hstep, descend_link hd hn, if_neg]
      · rfl
      · rintro ⟨hnil, hf⟩
        rcases hs with hs | hs
        · rw [hf] at hs
          cases hs
        · exact hs (List.append_eq_nil_iff.1 hnil).2
    | leaf hd n hn hdir hlink =>
      have hcomps : comps ≠ [] := by
        rintro rfl
        exact hstop _ (by rw [descend_leaf hd hn hdir hlink, if_pos rfl])
      rw [descend_leaf hd hn hdir hlink, descend_leaf hd hn hdir hlink, if_neg hcomps,
        if_neg (by simp [hcomps])]
      rfl

theorem descend_append_atLink {rest : List OsStr} {dir : HostPath} {c : OsStr}
    (h : t.descend root true cur comps = .atLink dir c target rest) (hs : follow = true ∨ s ≠ []) :
    t.descend root follow cur (comps ++ s) = .atLink dir c target (rest ++ s) :=
  descend_append_stop h (by simp) hs

variable {budget : Nat}

/-- **One walk after another.** A walk that arrives at a directory goes on from it, with the links
it has left. -/
theorem walk_append (h : t.walk root true budget cur comps = .ok p) (hp : t.isDir p = true)
    (hs : follow = true ∨ s ≠ []) : ∃ budget' ≤ budget,
      t.walk root follow budget cur (comps ++ s) = t.walk root follow budget' p s := by
  induction budget generalizing cur comps with
  | zero =>
    rw [walk] at h
    cases hd : t.descend root true cur comps with
    | arrived q =>
      rw [hd] at h
      obtain rfl := Except.ok.inj h
      refine ⟨0, le_rfl, ?_⟩
      rw [walk, walk, descend_append hd hp]
    | escaped => rw [hd] at h; cases h
    | stuck _ _ _ _ => rw [hd] at h; cases h
    | atLink _ _ _ _ => rw [hd] at h; cases h
  | succ budget ih =>
    rw [walk] at h
    cases hd : t.descend root true cur comps with
    | arrived q =>
      rw [hd] at h
      obtain rfl := Except.ok.inj h
      refine ⟨budget + 1, le_rfl, ?_⟩
      rw [walk, walk, descend_append hd hp]
    | escaped => rw [hd] at h; cases h
    | stuck _ _ _ _ => rw [hd] at h; cases h
    | atLink dir c target rest =>
      rw [hd] at h
      dsimp only at h
      split_ifs at h with habs
      obtain ⟨b, hb, hwalk⟩ := ih h
      refine ⟨b, by omega, ?_⟩
      rw [walk, descend_append_atLink hd hs]
      dsimp only
      rw [if_neg habs, ← hwalk, List.append_assoc]

theorem walk_append_error {e : IoError}
    (h : t.walk root true budget cur comps = .error e) (hs : follow = true ∨ s ≠ []) :
    t.walk root follow budget cur (comps ++ s) = .error e := by
  induction budget generalizing cur comps with
  | zero =>
    rw [walk] at h ⊢
    cases hd : t.descend root true cur comps with
    | arrived q =>
      rw [hd] at h
      cases h
    | escaped =>
      rw [hd] at h
      rw [descend_append_stop hd (by simp) hs]
      exact h
    | stuck _ _ _ _ =>
      rw [hd] at h
      rw [descend_append_stop hd (by simp) hs]
      exact h
    | atLink _ _ _ _ =>
      rw [hd] at h
      rw [descend_append_stop hd (by simp) hs]
      exact h
  | succ budget ih =>
    rw [walk] at h ⊢
    cases hd : t.descend root true cur comps with
    | arrived q =>
      rw [hd] at h
      cases h
    | escaped =>
      rw [hd] at h
      rw [descend_append_stop hd (by simp) hs]
      exact h
    | stuck _ _ _ _ =>
      rw [hd] at h
      rw [descend_append_stop hd (by simp) hs]
      exact h
    | atLink dir c target rest =>
      rw [hd] at h
      rw [descend_append_stop hd (by simp) hs]
      dsimp only [Stop.extend] at h ⊢
      split_ifs at h ⊢ with habs
      · exact h
      · rw [← List.append_assoc]
        exact ih h

/-! ## Walks that meet no link -/

theorem descend_clear (hplain : ∀ c ∈ s, IsPlain c)
    (hclear : ∀ q, q <+: s → q ≠ [] → (q ≠ s ∨ follow = true) → t.linkAt (cur ++ q) = none) :
    t.descend root follow cur s = .arrived (cur ++ s) ∨
      ∃ dir c rest e, t.descend root follow cur s = .stuck dir c rest e := by
  induction s generalizing cur with
  | nil => exact Or.inl (by simp)
  | cons c rest ih =>
    have hc : IsPlain c := hplain c List.mem_cons_self
    cases t.meets cur c with
    | skip h => exact (h.elim hc.1 hc.2.1).elim
    | up h => exact (hc.2.2 h).elim
    | missing _ hn =>
      rw [descend_none hc hn]
      split_ifs with hrest
      · exact Or.inl (by rw [hrest])
      · exact Or.inr ⟨_, _, _, _, rfl⟩
    | dir _ i hn =>
      rw [descend_dir hc hn, List.append_cons cur c rest]
      refine ih (fun d hd => hplain d (List.mem_cons_of_mem _ hd)) fun q hq _ hlast => ?_
      rw [← List.append_cons]
      refine hclear (c :: q) (List.prefix_cons_inj c |>.2 hq) (by simp) ?_
      simpa using hlast
    | link _ i target hn =>
      have hlink : t.linkAt (cur ++ [c]) = some target := linkAt_eq_some.2 ⟨i, hn⟩
      rw [descend_link hc hn]
      by_cases hlast : rest = [] ∧ follow = false
      · rw [if_pos hlast, hlast.1]
        exact Or.inl rfl
      · have hnone := hclear [c] (by simp) (by simp) (by
          rw [not_and_or] at hlast
          exact hlast.imp (fun h => by simpa using Ne.symm h) (fun h => by simpa using h))
        rw [hlink] at hnone
        cases hnone
    | leaf _ n hn hdir hl =>
      rw [descend_leaf hc hn hdir hl]
      split_ifs with hrest
      · exact Or.inl (by rw [hrest])
      · exact Or.inr ⟨_, _, _, _, rfl⟩

theorem walk_clear (hplain : ∀ c ∈ s, IsPlain c)
    (hclear : ∀ q, q <+: s → q ≠ [] → (q ≠ s ∨ follow = true) → t.linkAt (cur ++ q) = none)
    (h : t.walk root follow budget cur s = .ok p) : p = cur ++ s := by
  rw [walk] at h
  rcases descend_clear hplain hclear with hd | ⟨dir, c, rest, e, hd⟩
  · rw [hd] at h
    exact (Except.ok.inj h).symm
  · rw [hd] at h
    cases h

theorem walk_name {c : OsStr} (hc : IsPlain c) :
    t.walk root false budget cur [c] = .ok (cur ++ [c]) := by
  have hd : t.descend root false cur [c] = .arrived (cur ++ [c]) := by
    cases t.meets cur c with
    | skip h => exact (h.elim hc.1 hc.2.1).elim
    | up h => exact (hc.2.2 h).elim
    | missing _ hn => rw [descend_none hc hn, if_pos rfl]
    | dir _ i hn => rw [descend_dir hc hn, descend_nil]
    | link _ i target hn => rw [descend_link hc hn, if_pos ⟨rfl, rfl⟩]
    | leaf _ n hn hk hl => rw [descend_leaf hc hn hk hl, if_pos rfl]
  cases budget <;> rw [walk, hd]

theorem descend_present (hplain : ∀ c ∈ s, IsPlain c)
    (h : t.isPresent (cur ++ s) = true) (hlast : follow = true → t.linkAt (cur ++ s) = none) :
    t.descend root follow cur s = .arrived (cur ++ s) := by
  induction s generalizing cur with
  | nil => simp
  | cons c rest ih =>
    have hc : IsPlain c := hplain c List.mem_cons_self
    have hdir : rest ≠ [] → t.isDir (cur ++ [c]) = true := fun hrest =>
      isDir_above ⟨rest, by simp⟩ (by simpa using Ne.symm hrest) h
    cases t.meets cur c with
    | skip h => exact (h.elim hc.1 hc.2.1).elim
    | up h => exact (hc.2.2 h).elim
    | missing _ hn =>
      have hp : t.isPresent (cur ++ [c]) = true := isPresent_above ⟨rest, by simp⟩ h
      rw [isPresent, hn] at hp
      cases hp
    | dir _ i hn =>
      rw [List.append_cons] at h hlast ⊢
      rw [descend_dir hc hn]
      exact ih (fun d hd => hplain d (List.mem_cons_of_mem _ hd)) h hlast
    | link _ i target hn =>
      have hlink : t.linkAt (cur ++ [c]) = some target := linkAt_eq_some.2 ⟨i, hn⟩
      by_cases hrest : rest = []
      · subst hrest
        rw [descend_link hc hn, if_pos]
        refine ⟨rfl, ?_⟩
        by_contra hf
        rw [hlast (by simpa using hf)] at hlink
        cases hlink
      · rw [linkAt_of_isDir (hdir hrest)] at hlink
        cases hlink
    | leaf _ n hn hk hl =>
      by_cases hrest : rest = []
      · rw [descend_leaf hc hn hk hl, if_pos hrest, hrest]
      · have := hdir hrest
        rw [isDir_eq_false_of_node hn hk] at this
        cases this

theorem walk_present (hplain : ∀ c ∈ s, IsPlain c)
    (h : t.isPresent (cur ++ s) = true) (hlast : follow = true → t.linkAt (cur ++ s) = none) :
    t.walk root follow budget cur s = .ok (cur ++ s) := by
  rw [walk, descend_present hplain h hlast]

theorem lookup_eq_ok {rel : List OsStr} : t.lookup root follow rel = .ok p ↔
    rel ≠ [] ∧ (¬ ∃ c ∈ rel, .chr '\x00' ∈ c) ∧
      t.walk root follow maxSymlinks root rel = .ok p := by
  unfold lookup
  split_ifs with hnil hnul
  · simp [hnil]
  · simp only [false_iff]
    exact fun h => h.2.1 hnul
  · exact ⟨fun h => ⟨hnil, hnul, h⟩, fun h => h.2.2⟩

theorem lookup_dot : t.lookup root follow [dot] = .ok root := by
  rw [lookup, if_neg (by simp), if_neg (by decide), walk, descend_skip (Or.inr rfl), descend_nil]

theorem lookup_dotdot : t.lookup root follow [dotdot] = .error escapeAttempt := by
  rw [lookup, if_neg (by simp), if_neg (by decide), walk, descend_dotdot, if_pos rfl]

/-! ## Walks that need not follow the last component -/

theorem descend_unlinked
    (h : t.descend root false cur comps = .arrived p) (hp : t.linkAt p = none) :
    t.descend root true cur comps = .arrived p := by
  induction comps generalizing cur with
  | nil => exact h
  | cons c rest ih =>
    cases t.meets cur c with
    | skip hs =>
      rw [descend_skip hs] at h ⊢
      exact ih h
    | up hs =>
      subst hs
      rw [descend_dotdot] at h ⊢
      split_ifs at h with hroot
      rw [if_neg hroot]
      exact ih h
    | missing hc hn =>
      rw [descend_none hc hn] at h ⊢
      exact h
    | dir hc i hn =>
      rw [descend_dir hc hn] at h ⊢
      exact ih h
    | link hc i target hn =>
      rw [descend_link hc hn] at h
      split_ifs at h with hlast
      obtain rfl := Stop.arrived.inj h
      rw [linkAt_eq_some.2 ⟨i, hn⟩] at hp
      cases hp
    | leaf hc n hn hdir hlink =>
      rw [descend_leaf hc hn hdir hlink] at h ⊢
      exact h

theorem descend_atLink_true {rest : List OsStr} {dir : HostPath} {c : OsStr}
    (h : t.descend root false cur comps = .atLink dir c target rest) :
    t.descend root true cur comps = .atLink dir c target rest := by
  induction comps generalizing cur with
  | nil => cases h
  | cons a comps ih =>
    cases t.meets cur a with
    | skip hs =>
      rw [descend_skip hs] at h ⊢
      exact ih h
    | up hs =>
      subst hs
      rw [descend_dotdot] at h ⊢
      split_ifs at h with hroot
      rw [if_neg hroot]
      exact ih h
    | missing ha hn =>
      rw [descend_none ha hn] at h
      split_ifs at h
    | dir ha i hn =>
      rw [descend_dir ha hn] at h ⊢
      exact ih h
    | link ha i tgt hn =>
      rw [descend_link ha hn] at h ⊢
      split_ifs at h with hlast
      rw [if_neg (by simp)]
      exact h
    | leaf ha n hn hdir hlink =>
      rw [descend_leaf ha hn hdir hlink] at h
      split_ifs at h

theorem walk_unlinked (h : t.walk root false budget cur comps = .ok p) (hp : t.linkAt p = none) :
    t.walk root true budget cur comps = .ok p := by
  induction budget generalizing cur comps with
  | zero =>
    rw [walk] at h ⊢
    cases hd : t.descend root false cur comps with
    | arrived q =>
      rw [hd] at h
      obtain rfl := Except.ok.inj h
      rw [descend_unlinked hd hp]
    | escaped =>
      rw [hd] at h
      cases h
    | stuck _ _ _ _ =>
      rw [hd] at h
      cases h
    | atLink _ _ _ _ =>
      rw [hd] at h
      cases h
  | succ budget ih =>
    rw [walk] at h ⊢
    cases hd : t.descend root false cur comps with
    | arrived q =>
      rw [hd] at h
      obtain rfl := Except.ok.inj h
      rw [descend_unlinked hd hp]
    | escaped =>
      rw [hd] at h
      cases h
    | stuck _ _ _ _ =>
      rw [hd] at h
      cases h
    | atLink dir c target rest =>
      rw [hd] at h
      dsimp only at h
      split_ifs at h with habs
      rw [descend_atLink_true hd]
      dsimp only
      rw [if_neg habs]
      exact ih h

theorem lookup_unlinked {rel : List OsStr} (h : t.lookup root false rel = .ok p)
    (hp : t.linkAt p = none) : t.lookup root true rel = .ok p := by
  obtain ⟨hnil, hnul, hwalk⟩ := lookup_eq_ok.1 h
  exact lookup_eq_ok.2 ⟨hnil, hnul, walk_unlinked hwalk hp⟩

end Tree

end Seahaven.Host
