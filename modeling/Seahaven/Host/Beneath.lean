import Seahaven.Host.Call

/-!
# Walks beneath a directory

What a walk started at an open directory has in common with one from the top of the tree, and a walk
that follows its last link with one that does not.

1. `walk_beneath`: a walk that stays beneath its directory goes the same way from the top.
2. `walk_false_cases`: one that is not to follow the last link goes the same way, or arrives.
3. `walk_parent`: a walk arrives in a directory.
-/

namespace Seahaven.Host.Tree

open OsStr

variable {t : Tree} {root cur s : HostPath} {follow : Bool} {comps : List OsStr}

theorem descend_beneath (hcur : root <+: cur)
    (h : t.descend root follow cur comps ≠ .escaped) :
    t.descend [] follow cur comps = t.descend root follow cur comps ∧
      ∀ dir c target rest, t.descend root follow cur comps = .atLink dir c target rest →
        root <+: dir := by
  induction comps generalizing cur with
  | nil => exact ⟨rfl, fun _ _ _ _ h => by cases h⟩
  | cons c rest ih =>
    cases t.meets cur c with
    | skip hs =>
      rw [descend_skip hs] at h ⊢
      rw [descend_skip hs]
      exact ih hcur h
    | up hs =>
      subst hs
      rw [descend_dotdot] at h
      split_ifs at h with hroot
      · exact absurd rfl h
      · have hne : cur ≠ [] := by
          rintro rfl
          exact hroot (List.prefix_nil.1 hcur).symm
        have hup : root <+: cur.dropLast := by
          obtain ⟨x, rfl⟩ := hcur
          have hx : x ≠ [] := by
            rintro rfl
            exact hroot (List.append_nil root)
          rw [List.dropLast_append_of_ne_nil hx]
          exact List.prefix_append _ _
        rw [descend_dotdot, descend_dotdot, if_neg hne, if_neg hroot]
        exact ih hup h
    | missing hc hn =>
      rw [descend_none hc hn, descend_none hc hn]
      refine ⟨rfl, fun _ _ _ _ h => ?_⟩
      split_ifs at h
    | dir hc i hn =>
      rw [descend_dir hc hn] at h ⊢
      rw [descend_dir hc hn]
      exact ih (hcur.trans (List.prefix_append _ _)) h
    | link hc i target hn =>
      rw [descend_link hc hn, descend_link hc hn]
      refine ⟨rfl, fun _ _ _ _ h => ?_⟩
      split_ifs at h
      obtain ⟨rfl, -⟩ := Stop.atLink.inj h
      exact hcur
    | leaf hc n hn hdir hlink =>
      rw [descend_leaf hc hn hdir hlink, descend_leaf hc hn hdir hlink]
      refine ⟨rfl, fun _ _ _ _ h => ?_⟩
      split_ifs at h

theorem walk_beneath {budget : Nat} (hcur : root <+: cur)
    (h : t.walk root follow budget cur comps = .ok s) :
    t.walk [] follow budget cur comps = .ok s := by
  induction budget generalizing cur comps with
  | zero =>
    rw [walk] at h ⊢
    have hne : t.descend root follow cur comps ≠ .escaped := by
      intro he
      rw [he] at h
      cases h
    rw [(descend_beneath hcur hne).1]
    exact h
  | succ budget ih =>
    rw [walk] at h ⊢
    have hne : t.descend root follow cur comps ≠ .escaped := by
      intro he
      rw [he] at h
      cases h
    obtain ⟨hsame, hlink⟩ := descend_beneath hcur hne
    rw [hsame]
    cases hd : t.descend root follow cur comps with
    | arrived q =>
      rw [hd] at h
      exact h
    | escaped => exact absurd hd hne
    | stuck _ _ _ _ =>
      rw [hd] at h
      cases h
    | atLink dir c target rest =>
      rw [hd] at h
      dsimp only at h ⊢
      split_ifs at h with habs
      rw [if_neg habs]
      exact ih (hlink _ _ _ _ hd) h

theorem descend_false_cases : t.descend root false cur comps = t.descend root true cur comps ∨
    ∃ s, t.descend root false cur comps = .arrived s := by
  induction comps generalizing cur with
  | nil => exact Or.inl rfl
  | cons c rest ih =>
    cases t.meets cur c with
    | skip hs =>
      rw [descend_skip hs, descend_skip hs]
      exact ih
    | up hs =>
      subst hs
      rw [descend_dotdot, descend_dotdot]
      split_ifs
      · exact Or.inl rfl
      · exact ih
    | missing hc hn => exact Or.inl (by rw [descend_none hc hn, descend_none hc hn])
    | dir hc i hn =>
      rw [descend_dir hc hn, descend_dir hc hn]
      exact ih
    | link hc i target hn =>
      rw [descend_link hc hn, descend_link hc hn, if_neg (show ¬ (rest = [] ∧ true = false) by simp)]
      split_ifs
      · exact Or.inr ⟨_, rfl⟩
      · exact Or.inl rfl
    | leaf hc n hn hdir hlink =>
      exact Or.inl (by rw [descend_leaf hc hn hdir hlink, descend_leaf hc hn hdir hlink])

theorem walk_false_cases {budget : Nat} :
    t.walk root false budget cur comps = t.walk root true budget cur comps ∨
      ∃ s, t.walk root false budget cur comps = .ok s := by
  induction budget generalizing cur comps with
  | zero =>
    rw [walk, walk]
    rcases @descend_false_cases t root cur comps with heq | ⟨s, hs⟩
    · exact Or.inl (by rw [heq])
    · exact Or.inr ⟨s, by rw [hs]⟩
  | succ budget ih =>
    rw [walk, walk]
    rcases @descend_false_cases t root cur comps with heq | ⟨s, hs⟩
    · rw [heq]
      cases t.descend root true cur comps with
      | arrived q => exact Or.inl rfl
      | escaped => exact Or.inl rfl
      | stuck _ _ _ _ => exact Or.inl rfl
      | atLink dir c target rest =>
        dsimp only
        split_ifs
        · exact Or.inl rfl
        · exact ih
    · exact Or.inr ⟨s, by rw [hs]⟩

theorem lookup_false_cases (t : Tree) (root : HostPath) (rel : List OsStr) :
    t.lookup root false rel = t.lookup root true rel ∨ ∃ s, t.lookup root false rel = .ok s := by
  unfold lookup
  split_ifs
  · exact Or.inl rfl
  · exact Or.inl rfl
  · exact walk_false_cases

theorem isDir_dropLast {p : HostPath} (hp : t.isDir p = true) : t.isDir p.dropLast = true := by
  rcases List.eq_nil_or_concat' p with rfl | ⟨dir, c, rfl⟩
  · exact hp
  · rw [List.dropLast_concat]
    exact isDir_parent (isPresent_of_isDir hp)

theorem descend_atLink_dir {dir : HostPath} {c target : OsStr} {rest : List OsStr}
    (hcur : t.isDir cur = true) (h : t.descend root follow cur comps = .atLink dir c target rest) :
    t.isDir dir = true := by
  induction comps generalizing cur with
  | nil => cases h
  | cons a comps ih =>
    cases t.meets cur a with
    | skip hs =>
      rw [descend_skip hs] at h
      exact ih hcur h
    | up hs =>
      subst hs
      rw [descend_dotdot] at h
      split_ifs at h with hroot
      exact ih (isDir_dropLast hcur) h
    | missing ha hn =>
      rw [descend_none ha hn] at h
      split_ifs at h
    | dir ha i hn =>
      rw [descend_dir ha hn] at h
      exact ih (isDir_iff.2 ⟨i, hn⟩) h
    | link ha i tgt hn =>
      rw [descend_link ha hn] at h
      split_ifs at h
      obtain ⟨rfl, -⟩ := Stop.atLink.inj h
      exact hcur
    | leaf ha n hn hdir hlink =>
      rw [descend_leaf ha hn hdir hlink] at h
      split_ifs at h

theorem descend_parent (hcur : t.isDir cur = true)
    (h : t.descend root follow cur comps = .arrived s) : t.isDir s.dropLast = true := by
  induction comps generalizing cur with
  | nil =>
    obtain rfl := Stop.arrived.inj h
    exact isDir_dropLast hcur
  | cons c rest ih =>
    have hlast : ∀ e : Errno, (if rest = [] then Stop.arrived (cur ++ [c])
        else .stuck cur c rest e) = .arrived s → t.isDir s.dropLast = true := by
      intro e he
      split_ifs at he
      obtain rfl := Stop.arrived.inj he
      rwa [List.dropLast_concat]
    cases t.meets cur c with
    | skip hs =>
      rw [descend_skip hs] at h
      exact ih hcur h
    | up hs =>
      subst hs
      rw [descend_dotdot] at h
      split_ifs at h
      exact ih (isDir_dropLast hcur) h
    | missing hc hn =>
      rw [descend_none hc hn] at h
      exact hlast .noent h
    | dir hc i hn =>
      rw [descend_dir hc hn] at h
      exact ih (isDir_iff.2 ⟨i, hn⟩) h
    | link hc i target hn =>
      rw [descend_link hc hn] at h
      split_ifs at h
      obtain rfl := Stop.arrived.inj h
      rwa [List.dropLast_concat]
    | leaf hc n hn hdir hlink =>
      rw [descend_leaf hc hn hdir hlink] at h
      exact hlast .notdir h

theorem walk_parent {budget : Nat} (hcur : t.isDir cur = true)
    (h : t.walk root follow budget cur comps = .ok s) : t.isDir s.dropLast = true := by
  induction budget generalizing cur comps with
  | zero =>
    rw [walk] at h
    cases hd : t.descend root follow cur comps with
    | arrived q =>
      rw [hd] at h
      obtain rfl := Except.ok.inj h
      exact descend_parent hcur hd
    | escaped =>
      rw [hd] at h
      cases h
    | stuck _ _ _ _ =>
      rw [hd] at h
      cases h
    | atLink _ _ _ _ =>
      rw [hd] at h
      cases h
  | succ budget ih =>
    rw [walk] at h
    cases hd : t.descend root follow cur comps with
    | arrived q =>
      rw [hd] at h
      obtain rfl := Except.ok.inj h
      exact descend_parent hcur hd
    | escaped =>
      rw [hd] at h
      cases h
    | stuck _ _ _ _ =>
      rw [hd] at h
      cases h
    | atLink dir c target rest =>
      rw [hd] at h
      dsimp only at h
      split_ifs at h
      exact ih (descend_atLink_dir hcur hd) h

theorem walk_in_dir {budget : Nat} {dir : HostPath} {c : OsStr} (hplain : ∀ c ∈ dir, IsPlain c)
    (hc : IsPlain c) (hdir : t.isDir dir = true)
    (hlink : follow = true → t.linkAt (dir ++ [c]) = none) :
    t.walk [] follow budget [] (dir ++ [c]) = .ok (dir ++ [c]) := by
  have harrive : t.descend [] follow [] dir = .arrived ([] ++ dir) :=
    descend_present hplain (isPresent_of_isDir hdir) fun _ => linkAt_of_isDir hdir
  have hlast : t.descend [] follow dir [c] = .arrived (dir ++ [c]) := by
    cases t.meets dir c with
    | skip h => exact (h.elim hc.1 hc.2.1).elim
    | up h => exact (hc.2.2 h).elim
    | missing _ hn => rw [descend_none hc hn, if_pos rfl]
    | dir _ i hn => rw [descend_dir hc hn, descend_nil]
    | link _ i target hn =>
      rw [descend_link hc hn]
      cases follow with
      | true =>
        rw [linkAt_eq_some.2 ⟨i, hn⟩] at hlink
        cases hlink rfl
      | false => rw [if_pos ⟨rfl, rfl⟩]
    | leaf _ n hn hk hl => rw [descend_leaf hc hn hk hl, if_pos rfl]
  rw [walk, descend_append harrive hdir, List.nil_append, hlast]

theorem descend_unlinked_name {n : OsStr} (hn : IsPlain n) (hlink : t.linkAt (cur ++ [n]) = none) :
    t.descend root true cur [n] = .arrived (cur ++ [n]) := by
  cases t.meets cur n with
  | skip h => exact (h.elim hn.1 hn.2.1).elim
  | up h => exact (hn.2.2 h).elim
  | missing _ hm => rw [descend_none hn hm, if_pos rfl]
  | dir _ i hm => rw [descend_dir hn hm, descend_nil]
  | link _ i target hm =>
    rw [linkAt_eq_some.2 ⟨i, hm⟩] at hlink
    cases hlink
  | leaf _ m hm hk hl => rw [descend_leaf hn hm hk hl, if_pos rfl]

theorem eq_of_lookup_name {dir : HostPath} {n : OsStr} (hn : IsPlain n)
    (hs : t.lookup dir false [n] = .ok s) : s = dir ++ [n] := by
  have hwalk := (lookup_eq_ok.1 hs).2.2
  rw [walk_name hn] at hwalk
  exact (Except.ok.inj hwalk).symm

theorem openat_congr {proc : Proc} {root' : HostPath} {rel rel' : List OsStr} {flags : OFlags}
    {mode : Nat} (h : t.lookup root (followsFinal flags) rel = .ok s)
    (h' : t.lookup root' (followsFinal flags) rel' = .ok s) :
    t.openat proc root rel flags mode = t.openat proc root' rel' flags mode := by
  rw [openat, openat, h, h']

end Seahaven.Host.Tree
