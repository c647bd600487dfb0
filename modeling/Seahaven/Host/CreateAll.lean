import Seahaven.Host.Cap

/-!
# Creating a directory and what is above it

`create_dir_all` makes a directory once the ones above it are there. Where it succeeds its path
leads to a directory; and a refusal, which the host gives only for a path that leads out of the
handle's directory, comes before anything is made.
-/

namespace Seahaven.Host

open OsStr Op

variable {c : OsStr}

namespace Tree

variable {t t' : Tree} {root cur : HostPath}

/-! ## A walk that arrives at a new directory -/

section Grown

variable {p : HostPath} (hkeep : ∀ q n, t.node q = some n → t'.node q = some n)
  (hnone : t.node p = none) (hdir : t'.isDir p = true)

include hkeep

variable {comps : List OsStr}

theorem descend_grown_atLink {rest : List OsStr} {dir : HostPath} {target : OsStr}
    (h : t.descend root false cur comps = .atLink dir c target rest) :
    t'.descend root true cur comps = .atLink dir c target rest := by
  induction comps generalizing cur with
  | nil => cases h
  | cons d comps ih =>
    cases t.meets cur d with
    | skip hd =>
      rw [descend_skip hd] at h ⊢
      exact ih h
    | up hd =>
      subst hd
      rw [descend_dotdot] at h ⊢
      split_ifs at h ⊢
      exact ih h
    | missing hd hn =>
      rw [descend_none hd hn] at h
      split_ifs at h
    | dir hd i hn =>
      rw [descend_dir hd hn] at h
      rw [descend_dir hd (hkeep _ _ hn)]
      exact ih h
    | link hd i tgt hn =>
      rw [descend_link hd hn] at h
      rw [descend_link hd (hkeep _ _ hn), if_neg (by simp)]
      split_ifs at h
      exact h
    | leaf hd n hn hk hl =>
      rw [descend_leaf hd hn hk hl] at h
      split_ifs at h

include hnone hdir

theorem descend_grown (h : t.descend root false cur comps = .arrived p) :
    t'.descend root true cur comps = .arrived p := by
  induction comps generalizing cur with
  | nil => exact h
  | cons c rest ih =>
    cases t.meets cur c with
    | skip hc =>
      rw [descend_skip hc] at h ⊢
      exact ih h
    | up hc =>
      subst hc
      rw [descend_dotdot] at h ⊢
      split_ifs at h ⊢
      exact ih h
    | missing hc hn =>
      rw [descend_none hc hn] at h
      split_ifs at h with hrest
      obtain rfl := Stop.arrived.inj h
      obtain ⟨i, hi⟩ := isDir_iff.1 hdir
      rw [descend_dir hc hi, hrest]
      rfl
    | dir hc i hn =>
      rw [descend_dir hc hn] at h
      rw [descend_dir hc (hkeep _ _ hn)]
      exact ih h
    | link hc i target hn =>
      rw [descend_link hc hn] at h
      split_ifs at h
      obtain rfl := Stop.arrived.inj h
      rw [hn] at hnone
      cases hnone
    | leaf hc n hn hk hl =>
      rw [descend_leaf hc hn hk hl] at h
      split_ifs at h
      obtain rfl := Stop.arrived.inj h
      rw [hn] at hnone
      cases hnone

theorem walk_grown {budget : Nat}
    (h : t.walk root false budget cur comps = .ok p) :
    t'.walk root true budget cur comps = .ok p := by
  induction budget generalizing cur comps with
  | zero =>
    rw [walk] at h
    cases hd : t.descend root false cur comps with
    | arrived q =>
      rw [hd] at h
      obtain rfl := Except.ok.inj h
      rw [walk, descend_grown hkeep hnone hdir hd]
    | escaped => rw [hd] at h; cases h
    | stuck _ _ _ _ => rw [hd] at h; cases h
    | atLink _ _ _ _ => rw [hd] at h; cases h
  | succ budget ih =>
    rw [walk] at h
    cases hd : t.descend root false cur comps with
    | arrived q =>
      rw [hd] at h
      obtain rfl := Except.ok.inj h
      rw [walk, descend_grown hkeep hnone hdir hd]
    | escaped => rw [hd] at h; cases h
    | stuck _ _ _ _ => rw [hd] at h; cases h
    | atLink dir c target rest =>
      rw [hd] at h
      rw [walk, descend_grown_atLink hkeep hd]
      dsimp only at h ⊢
      split_ifs at h ⊢
      exact ih h

end Grown

end Tree

namespace CapDir

variable {d : CapDir} {h h' : Host} {mode : Nat}

def Made (d : CapDir) (h : Host) (rel : List OsStr) : Prop :=
  rel = [] ∨ ∃ root p, (h.tree d.tree).pathOf d.ino = some root ∧
    (h.tree d.tree).lookup root true rel = .ok p ∧ (h.tree d.tree).isDir p = true

variable {rel : List OsStr}

theorem made_of_isDir (hd : d.isDir rel h = true) : d.Made h rel := by
  unfold isDir at hd
  split at hd
  · rename_i m hm
    obtain ⟨root, p, n, hroot, hp, hn, rfl⟩ := statWith_eq_ok.1 hm
    refine Or.inr ⟨root, p, hroot, hp, ?_⟩
    rw [Tree.isDir, hn]
    simpa [Metadata.isDir] using hd
  · cases hd

theorem made_of_createDir (hc : d.createDir mode rel h = (.ok (), h')) :
    d.Made h' rel := by
  obtain ⟨root, e, t, hroot, he, ht, rfl⟩ := edit_eq_ok hc
  obtain ⟨dir, name, hp, rfl⟩ := Tree.mkdir_eq_ok he
  obtain ⟨hins, hnode, -⟩ := Tree.apply_add ht
  have hkeep : ∀ q n, (h.tree d.tree).node q = some n → t.node q = some n := by
    intro q n hq
    rw [hnode, if_neg, hq]
    rintro rfl
    rw [hins.free] at hq
    cases hq
  have hdir : t.isDir (dir ++ [name]) = true := Tree.isDir_iff.2 ⟨_, by rw [hnode, if_pos rfl]⟩
  refine Or.inr ⟨root, dir ++ [name], ?_, ?_, ?_⟩
  · rw [Host.tree_set_self]
    exact Tree.pathOf_eq_some.2 (hkeep _ _ (Tree.pathOf_eq_some.1 hroot))
  · rw [Host.tree_set_self]
    unfold Tree.lookup at hp ⊢
    split_ifs at hp ⊢
    exact Tree.walk_grown hkeep hins.free hdir hp
  · rwa [Host.tree_set_self]

theorem lookup_name {parent : List OsStr} {root : HostPath} (hmade : d.Made h parent)
    (hroot : (h.tree d.tree).pathOf d.ino = some root) (hc : IsPlain c) :
    (∃ p, (h.tree d.tree).lookup root false (parent ++ [c]) = .ok (p ++ [c])) ∨
      (h.tree d.tree).lookup root false (parent ++ [c]) = .error (.os .inval) := by
  unfold Tree.lookup
  rw [if_neg (by simp)]
  split_ifs with hnul
  · exact Or.inr rfl
  rcases hmade with rfl | ⟨root', p, hroot', hp, hdir⟩
  · exact Or.inl ⟨root, Tree.walk_name hc⟩
  · obtain rfl := Option.some.inj (hroot.symm.trans hroot')
    unfold Tree.lookup at hp
    split_ifs at hp
    have hfollow : false = true ∨ [c] ≠ [] := Or.inr (by simp)
    obtain ⟨b, -, hwalk⟩ := Tree.walk_append hp hdir hfollow
    exact Or.inl ⟨p, hwalk.trans (Tree.walk_name hc)⟩

variable {e : IoError}

theorem createDir_not_denied {parent : List OsStr}
    (hmade : d.Made h parent) (hc : IsPlain c)
    (he : (d.createDir mode (parent ++ [c]) h).1 = .error e) : e.kind ≠ .permissionDenied := by
  rcases edit_eq_error he with ⟨-, rfl⟩ | ⟨root, hroot, hmk | ⟨e', he', ht⟩⟩
  · simp [Errno.kind]
  · unfold Tree.mkdir Tree.lookupEntry at hmk
    rcases lookup_name hmade hroot hc with ⟨p, hp⟩ | hp
    · rw [hp] at hmk
      simp only [List.getLast?_append, List.getLast?_singleton, Option.some_or] at hmk
      split_ifs at hmk
      rw [← Except.error.inj hmk]
      simp [Errno.kind]
    · rw [hp] at hmk
      rw [← Except.error.inj hmk]
      simp [Errno.kind]
  · obtain ⟨dir, name, -, rfl⟩ := Tree.mkdir_eq_ok he'
    simp only [Tree.apply] at ht
    split_ifs at ht
    rw [← Except.error.inj ht]
    simp [Errno.kind]

theorem createDirAllRev_cons (c : OsStr) (parent : List OsStr) :
    d.createDirAllRev mode (c :: parent) h =
      match d.createDir mode (c :: parent).reverse h with
      | (.ok (), h') => (.ok (), h')
      | (.error e, h') =>
        if e.kind = .notFound then
          match d.createDirAllRev mode parent h' with
          | (.error e, h') => (.error e, h')
          | (.ok (), h') =>
            match d.createDir mode (c :: parent).reverse h' with
            | (.ok (), h') => (.ok (), h')
            | (.error e, h') => d.orIsDir (c :: parent).reverse e h'
        else d.orIsDir (c :: parent).reverse e h' := by
  rw [createDirAllRev]
  cases hc : d.createDir mode (c :: parent).reverse h with
  | mk r h' =>
    rw [bind_ok (show attempt _ h = (.ok r, h') by rw [attempt_apply, hc])]
    cases r with
    | ok u => rfl
    | error e =>
      dsimp only
      split_ifs with hk
      · cases hp : d.createDirAllRev mode parent h' with
        | mk r h' =>
          cases r with
          | error e => rw [bind_error hp]
          | ok u =>
            rw [bind_ok hp]
            dsimp only
            cases hc : d.createDir mode (c :: parent).reverse h' with
            | mk r h' =>
              rw [bind_ok (show attempt _ _ = (.ok r, h') by rw [attempt_apply, hc])]
              cases r <;> rfl
      · rfl

theorem orIsDir_eq_ok (ho : d.orIsDir rel e h = (.ok (), h')) :
    h' = h ∧ d.isDir rel h = true := by
  unfold orIsDir at ho
  rw [read_apply] at ho
  obtain ⟨hr, rfl⟩ := Prod.mk.inj ho
  refine ⟨rfl, ?_⟩
  by_contra hn
  rw [if_neg hn] at hr
  cases hr

theorem orIsDir_eq_error {e' : IoError}
    (ho : d.orIsDir rel e h = (.error e', h')) : h' = h ∧ e' = e := by
  unfold orIsDir at ho
  rw [read_apply] at ho
  obtain ⟨hr, rfl⟩ := Prod.mk.inj ho
  refine ⟨rfl, ?_⟩
  split_ifs at hr
  exact (Except.error.inj hr).symm

/-- **A refused `create_dir_all` has made nothing**, and one that succeeded leaves a directory. -/
theorem createDirAllRev_spec {rev : List OsStr} (hplain : ∀ c ∈ rev, IsPlain c) :
    (∀ h', d.createDirAllRev mode rev h = (.ok (), h') → d.Made h' rev.reverse) ∧
      ∀ e h', d.createDirAllRev mode rev h = (.error e, h') → e.kind = .permissionDenied →
        h' = h := by
  induction rev generalizing h with
  | nil =>
    refine ⟨fun _ _ => Or.inl rfl, fun e h' he => ?_⟩
    cases (Prod.mk.inj he).1
  | cons c parent ih =>
    have hc : IsPlain c := hplain c List.mem_cons_self
    have ih := fun h : Host => ih (h := h) fun c hc => hplain c (List.mem_cons_of_mem _ hc)
    rw [createDirAllRev_cons]
    cases hmk : d.createDir mode (c :: parent).reverse h with
    | mk r h₁ =>
      cases r with
      | ok u =>
        refine ⟨fun h' hh => ?_, fun e h' he => ?_⟩
        · obtain ⟨-, rfl⟩ := Prod.mk.inj hh
          exact made_of_createDir hmk
        · cases (Prod.mk.inj he).1
      | error e₁ =>
        obtain rfl : h₁ = h := by
          have := edit_error (show (d.createDir mode (c :: parent).reverse h).1 = .error e₁ by
            rw [hmk])
          exact (congrArg Prod.snd hmk).symm.trans this
        dsimp only
        split_ifs with hk
        · cases hp : d.createDirAllRev mode parent h₁ with
          | mk r h₂ =>
            cases r with
            | error e₂ =>
              dsimp only
              refine ⟨fun h' hh => ?_, fun e h' he hdenied => ?_⟩
              · cases (Prod.mk.inj hh).1
              · obtain ⟨herr, rfl⟩ := Prod.mk.inj he
                obtain rfl : e₂ = e := Except.error.inj herr
                exact (ih h₁).2 e₂ h₂ hp hdenied
            | ok u =>
              dsimp only
              have hmade := (ih h₁).1 h₂ hp
              cases hmk₂ : d.createDir mode (c :: parent).reverse h₂ with
              | mk r h₃ =>
                cases r with
                | ok u =>
                  refine ⟨fun h' hh => ?_, fun e h' he => ?_⟩
                  · obtain ⟨-, rfl⟩ := Prod.mk.inj hh
                    exact made_of_createDir hmk₂
                  · cases (Prod.mk.inj he).1
                | error e₃ =>
                  refine ⟨fun h' hh => ?_, fun e h' he hdenied => ?_⟩
                  · obtain ⟨rfl, hdir⟩ := orIsDir_eq_ok hh
                    exact made_of_isDir hdir
                  · -- with the parent made, what fails now is not refused
                    obtain ⟨rfl, rfl⟩ := orIsDir_eq_error he
                    rw [List.reverse_cons] at hmk₂
                    exact (createDir_not_denied hmade hc
                      (show (d.createDir mode _ _).1 = _ by rw [hmk₂]) hdenied).elim
        · refine ⟨fun h' hh => ?_, fun e h' he _ => (orIsDir_eq_error he).1⟩
          obtain ⟨rfl, hdir⟩ := orIsDir_eq_ok hh
          exact made_of_isDir hdir

theorem createDirAll_denied (hplain : ∀ c ∈ rel, IsPlain c)
    (he : (d.createDirAll mode rel h).1 = .error e) (hk : e.kind = .permissionDenied) :
    (d.createDirAll mode rel h).2 = h :=
  (createDirAllRev_spec fun c hc => hplain c (List.mem_reverse.1 hc)).2 e _
    (Prod.ext he rfl) hk

end CapDir

end Seahaven.Host
