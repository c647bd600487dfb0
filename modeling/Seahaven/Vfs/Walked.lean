import Mathlib.Algebra.Order.BigOperators.Group.List
import Mathlib.Algebra.Order.Ring.Nat
import Seahaven.Vfs.WalkRun

/-!
# Which entries a walk yields, and in what order

1. `Site.IsEntry`: the entry of what is at a path beneath the root of a walk.
2. `Site.Walked`: each such entry whose depth is asked for, once, and its place among the others.
3. A walk that follows no links yields such a list.
-/

namespace Seahaven.Vfs

open Host OsStr Unicode

/-! ## Lists -/

theorem sublist_of_pairwise {α : Type} {R : α → α → Prop} {l : List α} {x y : α}
    (hl : l.Pairwise R) (hx : x ∈ l) (hy : y ∈ l) (hne : x ≠ y) (h : ¬ R y x) :
    [x, y].Sublist l := by
  induction l with
  | nil => cases hx
  | cons z l ih =>
    obtain ⟨hz, hl⟩ := List.pairwise_cons.1 hl
    rcases List.mem_cons.1 hx with rfl | hx'
    · exact (List.singleton_sublist.2 ((List.mem_cons.1 hy).resolve_left hne.symm)).cons_cons _
    · rcases List.mem_cons.1 hy with rfl | hy'
      · exact absurd (hz _ hx') h
      · exact (ih hl hx' hy').cons _

theorem ne_of_sublist {α : Type} {l : List α} {x y : α} (hl : l.Nodup) (h : [x, y].Sublist l) :
    x ≠ y := List.pairwise_iff_forall_sublist.1 hl h

theorem not_sublist_swap {α : Type} {l : List α} {x y : α} (hl : l.Nodup)
    (h : [x, y].Sublist l) : ¬ [y, x].Sublist l := by
  intro h'
  induction l with
  | nil => cases h
  | cons z l ih =>
    obtain ⟨hz, hl⟩ := List.nodup_cons.1 hl
    cases h with
    | cons _ h =>
      cases h' with
      | cons _ h' => exact ih hl h h'
      | cons_cons _ h' => exact hz (h.subset (by simp))
    | cons_cons _ h =>
      cases h' with
      | cons _ h' => exact hz (h'.subset (by simp))
      | cons_cons _ h' => exact hz (h.subset (by simp))

variable [Unicode]

namespace Site

/-! ## Entries -/

def Passes (c : OsStr) : Prop := .chr '\\' ∉ c ∧ ∃ e, validateComponent c = .ok e

variable (S : Site)

/-- Whether there is something at `r` beneath the root. -/
def Holds (r : HostPath) : Prop :=
  r = [] ∨ IntoIter.isNormalDir S.root = true ∧
    (S.host.tree S.tree).isPresent (S.dir ++ r) = true

/-- `d` is the entry of what is at `r` beneath the root. -/
structure IsEntry (r : HostPath) (d : DirEntry) : Prop where
  root : r = [] → d = S.root
  beneath : r ≠ [] → IntoIter.isNormalDir S.root = true
  metadata : r ≠ [] → metadataOf S.host S.tree (S.dir ++ r) = some d.metadata
  name : r ≠ [] → r.getLast? = some d.name
  link : d.isSymlink = d.metadata.isSymlink
  followed : d.followed = false
  depth : d.depth = r.length
  display : d.display = S.root.display ++ r
  path : d.path.components = S.root.path.components ++ r.map nfc

/-- What a walk yields, each item with its path beneath the root. -/
structure Walked (items : List (HostPath × Item)) : Prop where
  /-- Nothing is yielded twice. -/
  once : (items.map Prod.fst).Nodup
  /-- An entry yielded is the entry of what is there, and its depth is asked for. -/
  sound : ∀ {r d}, (r, .ok d) ∈ items → S.IsEntry r d ∧ (∀ c ∈ r, c.isUtf8 = true) ∧
    S.opts.minDepth ≤ r.length ∧ r.length ≤ S.opts.maxDepth
  /-- What is there is yielded, if its depth is asked for and the names on the way are text that
  passes the grammar. -/
  complete : ∀ {r}, S.Holds r → (∀ c ∈ r, c.isUtf8 = true ∧ Passes c) →
    S.opts.minDepth ≤ r.length → r.length ≤ S.opts.maxDepth → ∃ d, (r, .ok d) ∈ items
  /-- Nothing else is yielded, if every name that is text passes the grammar. -/
  quiet : (∀ r, S.Holds r → ∀ c ∈ r, c.isUtf8 = true → Passes c) → ∀ x ∈ items, ∃ d, x.2 = .ok d
  /-- What is beneath a directory comes after it, or before it with `contentsFirst`. -/
  around : ∀ {r q i j}, q ≠ [] → (r, i) ∈ items → (r ++ q, j) ∈ items →
    (if S.opts.contentsFirst then [(r ++ q, j), (r, i)] else [(r, i), (r ++ q, j)]).Sublist items
  /-- Siblings come in the order of the listing. -/
  siblings : ∀ {r d c c' i j}, S.IsEntry r d → [c, c'].Sublist (S.opts.order d (S.names r)) →
    (r ++ [c], i) ∈ items → (r ++ [c'], j) ∈ items →
      [(r ++ [c], i), (r ++ [c'], j)].Sublist items

variable {S} {d d' : DirEntry} {r q : HostPath} {c : OsStr} {n : Nat} {x : HostPath × Item}

theorem IsEntry.unique (h : S.IsEntry r d) (h' : S.IsEntry r d') : d = d' := by
  by_cases hr : r = []
  · rw [h.root hr, h'.root hr]
  · have hpath : d.path = d'.path := VirtualPath.ext (h.path.trans h'.path.symm)
    have hname := Option.some.inj ((h.name hr).symm.trans (h'.name hr))
    have hmeta := Option.some.inj ((h.metadata hr).symm.trans (h'.metadata hr))
    have hlink : d.isSymlink = d'.isSymlink := by rw [h.link, h'.link, hmeta]
    have hdepth := h.depth.trans h'.depth.symm
    have hdisplay := h.display.trans h'.display.symm
    have hfollowed := h.followed.trans h'.followed.symm
    obtain ⟨⟩ := d
    obtain ⟨⟩ := d'
    dsimp only at *
    subst hpath hname hmeta hlink hdepth hdisplay hfollowed
    rfl

theorem isEntry_root {v : Vfs} {p : VirtualPath} {display : PathBuf}
    (hroot : IntoIter.rootEntry S.host v p display = .ok S.root) : S.IsEntry [] S.root := by
  obtain ⟨m, -, he⟩ := rootEntry_eq_ok hroot
  constructor
  · exact fun _ => rfl
  · exact fun h => absurd rfl h
  · exact fun h => absurd rfl h
  · exact fun h => absurd rfl h
  · rw [he]
  · rw [he]
  · rw [he]
    rfl
  · rw [List.append_nil]
  · rw [List.map_nil, List.append_nil]

theorem passes_of_resolve {p path : VirtualPath} (hc : IsName c) (h : p.resolve c = .ok path) :
    path.components = p.components ++ [nfc c] := by
  obtain ⟨-, -, e, hv, hpath⟩ := (resolve_of_name hc).1 h
  rw [hpath, (validateComponent_eq_ok.1 hv).2.2.2]

theorem IsEntry.child (h : S.IsEntry r d) (hdir : IntoIter.isNormalDir d = true)
    (hc : c ∈ S.names r) (hchild : S.child d r c = .ok d') : S.IsEntry (r ++ [c]) d' := by
  obtain ⟨m, hpath, hmeta, he⟩ := child_eq_ok hchild
  have hbelow : IntoIter.isNormalDir S.root = true := by
    by_cases hr : r = []
    · rwa [← h.root hr]
    · exact h.beneath hr
  constructor
  · exact fun h => absurd h (by simp)
  · exact fun _ => hbelow
  · intro _
    rw [he, ← List.append_assoc]
    exact hmeta
  · intro _
    rw [he, List.getLast?_concat]
  · rw [he]
  · rw [he]
  · rw [he, List.length_append, h.depth]
    rfl
  · rw [he, h.display, List.append_assoc]
  · rw [passes_of_resolve (isName_of_mem hc) hpath, h.path, List.map_append, List.append_assoc]
    rfl

/-! ## The items of contents -/

theorem mem_own : x ∈ S.own d r ↔ S.skips d = false ∧ x = (r, .ok d) := by
  unfold own
  cases S.skips d <;> simp

theorem mem_one {contents : DirEntry → HostPath → List (HostPath × Item)} :
    x ∈ S.one contents d r c ↔
      (∃ e, S.child d r c = .error e ∧ x = (r ++ [c], .error e)) ∨
      (∃ d', S.child d r c = .ok d' ∧ S.skips d' = false ∧ x = (r ++ [c], .ok d')) ∨
      ∃ d', S.child d r c = .ok d' ∧ IntoIter.isNormalDir d' = true ∧
        x ∈ contents d' (r ++ [c]) := by
  unfold one
  cases S.child d r c with
  | error e => simp
  | ok d' =>
    dsimp only
    split_ifs with hdir
    · unfold around
      split_ifs <;> simp [mem_own, hdir, or_comm]
    · simp [mem_own, hdir]

theorem mem_below : x ∈ S.below (n + 1) d r ↔ d.depth + 1 ≤ S.opts.maxDepth ∧
    ∃ c ∈ S.names r, x ∈ S.one (S.below n) d r c := by
  rw [below]
  split_ifs with hmax
  · simp only [List.not_mem_nil, false_iff, not_and]
    exact fun h => absurd h (by omega)
  · simp only [List.mem_flatMap, (perm_order _ _ _).mem_iff]
    exact ⟨fun h => ⟨by omega, h⟩, And.right⟩

theorem below_beneath (hx : x ∈ S.below n d r) : ∃ q, q ≠ [] ∧ x.1 = r ++ q := by
  induction n generalizing d r with
  | zero => cases hx
  | succ n ih =>
    obtain ⟨-, c, -, hx⟩ := mem_below.1 hx
    rcases mem_one.1 hx with ⟨e, -, rfl⟩ | ⟨d', -, -, rfl⟩ | ⟨d', -, -, hx⟩
    · exact ⟨[c], by simp, rfl⟩
    · exact ⟨[c], by simp, rfl⟩
    · obtain ⟨q, -, hq⟩ := ih hx
      exact ⟨c :: q, by simp, by rw [hq, List.append_assoc]; rfl⟩

theorem one_beneath (hx : x ∈ S.one (S.below n) d r c) : ∃ q, x.1 = r ++ c :: q := by
  rcases mem_one.1 hx with ⟨e, -, rfl⟩ | ⟨d', -, -, rfl⟩ | ⟨d', -, -, hx⟩
  · exact ⟨[], rfl⟩
  · exact ⟨[], rfl⟩
  · obtain ⟨q, -, hq⟩ := below_beneath hx
    exact ⟨q, by rw [hq, List.append_assoc]; rfl⟩

theorem skips_eq_false : S.skips d = false ↔
    S.opts.minDepth ≤ d.depth ∧ d.depth ≤ S.opts.maxDepth := by
  simp [skips]

/-! ### Which entries -/

theorem sound_below (h : S.IsEntry r d) (hdir : IntoIter.isNormalDir d = true)
    (hr : ∀ c ∈ r, c.isUtf8 = true) (hx : (q, .ok d') ∈ S.below n d r) :
    S.IsEntry q d' ∧ (∀ c ∈ q, c.isUtf8 = true) ∧ S.skips d' = false := by
  induction n generalizing d r with
  | zero => cases hx
  | succ n ih =>
    obtain ⟨-, c, hc, hx⟩ := mem_below.1 hx
    have hutf : ∀ c' ∈ r ++ [c], c'.isUtf8 = true := by
      intro c' hc'
      rcases List.mem_append.1 hc' with hc' | hc'
      · exact hr c' hc'
      · exact List.mem_singleton.1 hc' ▸ (mem_names_iff.1 hc).2
    rcases mem_one.1 hx with ⟨e, -, he⟩ | ⟨d₁, hchild, hs, he⟩ | ⟨d₁, hchild, hdir', hx⟩
    · cases he
    · obtain ⟨rfl, rfl⟩ : q = r ++ [c] ∧ d' = d₁ := by simpa using he
      exact ⟨h.child hdir hc hchild, hutf, hs⟩
    · exact ih (h.child hdir hc hchild) hdir' hutf hx

theorem child_of_passes (hc : c ∈ S.names r) (hpass : Passes c) : ∃ d', S.child d r c = .ok d' := by
  obtain ⟨n, hn⟩ := Tree.isPresent_iff.1 (mem_names_iff.1 hc).1
  have hname := isName_of_mem hc
  obtain ⟨e, hv⟩ := hpass.2
  have hcomp := isComponent_of_validate hname.ne_nil hname.no_slash hpass.1 hname.no_nul hv
  have hpath : d.path.resolve c = .ok (d.path.push e hcomp) :=
    (resolve_of_name hname).2 ⟨hname.no_nul, hpass.1, e, hv, rfl⟩
  rw [child, hpath]
  dsimp only
  rw [metadataOf, hn]
  exact ⟨_, rfl⟩

theorem normal_of_isDir (hchild : S.child d r c = .ok d')
    (hdir : (S.host.tree S.tree).isDir (S.dir ++ r ++ [c]) = true) :
    IntoIter.isNormalDir d' = true := by
  obtain ⟨m, -, hm, he⟩ := child_eq_ok hchild
  obtain ⟨i, hi⟩ := Tree.isDir_iff.1 hdir
  rw [metadataOf, hi] at hm
  obtain rfl := Option.some.inj hm
  rw [he]
  rfl

theorem complete_below (hq : q ≠ []) (hlen : q.length ≤ n)
    (hpres : (S.host.tree S.tree).isPresent (S.dir ++ r ++ q) = true)
    (hpass : ∀ c ∈ q, c.isUtf8 = true ∧ Passes c) (hmin : S.opts.minDepth ≤ d.depth + q.length)
    (hmax : d.depth + q.length ≤ S.opts.maxDepth) : ∃ d', (r ++ q, .ok d') ∈ S.below n d r := by
  induction n generalizing d r q with
  | zero => exact absurd (List.length_eq_zero_iff.1 (Nat.le_zero.1 hlen)) hq
  | succ n ih =>
    obtain ⟨c, q, rfl⟩ := List.exists_cons_of_ne_nil hq
    rw [List.length_cons] at hlen hmin hmax
    obtain ⟨hc, hrest⟩ := List.forall_mem_cons.1 hpass
    have happ : S.dir ++ r ++ c :: q = S.dir ++ r ++ [c] ++ q := by simp
    rw [happ] at hpres
    have hmem : c ∈ S.names r :=
      mem_names_iff.2 ⟨Tree.isPresent_above (List.prefix_append _ _) hpres, hc.1⟩
    obtain ⟨d₁, hchild⟩ := child_of_passes (d := d) hmem hc.2
    have hdepth : d₁.depth = d.depth + 1 := by
      obtain ⟨m, -, -, he⟩ := child_eq_ok hchild
      rw [he]
    by_cases hnil : q = []
    · subst hnil
      have hs : S.skips d₁ = false := skips_eq_false.2 (by simp at hmin hmax; omega)
      exact ⟨d₁, mem_below.2 ⟨by omega, c, hmem,
        mem_one.2 (Or.inr (Or.inl ⟨d₁, hchild, hs, rfl⟩))⟩⟩
    · have hdir : (S.host.tree S.tree).isDir (S.dir ++ r ++ [c]) = true :=
        Tree.isDir_above (List.prefix_append _ _) (by simpa using hnil) hpres
      obtain ⟨d', hd'⟩ := ih (d := d₁) (r := r ++ [c]) hnil (by omega) (by simpa using hpres) hrest
        (by omega) (by omega)
      exact ⟨d', mem_below.2 ⟨by omega, c, hmem, mem_one.2 (Or.inr (Or.inr
        ⟨d₁, hchild, normal_of_isDir hchild hdir, by simpa using hd'⟩))⟩⟩

theorem quiet_below (hdir : (S.host.tree S.tree).isDir (S.dir ++ r) = true)
    (hpass : ∀ q, (S.host.tree S.tree).isPresent (S.dir ++ r ++ q) = true →
      ∀ c ∈ q, c.isUtf8 = true → Passes c) (hx : x ∈ S.below n d r) : ∃ d', x.2 = .ok d' := by
  induction n generalizing d r with
  | zero => cases hx
  | succ n ih =>
    obtain ⟨-, c, hc, hx⟩ := mem_below.1 hx
    obtain ⟨hpres, hutf⟩ := mem_names_iff.1 hc
    obtain ⟨d₁, hok⟩ := child_of_passes (d := d) hc (hpass [c] hpres c (by simp) hutf)
    rcases mem_one.1 hx with ⟨e, hchild, -⟩ | ⟨d', -, -, rfl⟩ | ⟨d', hchild, hnormal, hx⟩
    · rw [hok] at hchild
      cases hchild
    · exact ⟨d', rfl⟩
    · obtain ⟨ino, hino⟩ := node_of_normal hchild hnormal
      refine ih (Tree.isDir_iff.2 ⟨ino, by rw [← List.append_assoc, hino]⟩) (fun q hq c' hc' => ?_) hx
      exact hpass (c :: q) (by simpa using hq) c' (List.mem_cons_of_mem _ hc')

/-! ### In what order -/

variable (S) in
/-- What may come before what. -/
inductive Precedes : HostPath → HostPath → Prop
  | above {r q : HostPath} (hq : q ≠ []) (hcf : S.opts.contentsFirst = false) : Precedes r (r ++ q)
  | below {r q : HostPath} (hq : q ≠ []) (hcf : S.opts.contentsFirst = true) : Precedes (r ++ q) r
  | beside {r : HostPath} {d : DirEntry} {c c' : OsStr} {q q' : HostPath} (hd : S.IsEntry r d)
      (hc : [c, c'].Sublist (S.opts.order d (S.names r))) : Precedes (r ++ c :: q) (r ++ c' :: q')

theorem nodup_order : (S.opts.order d (S.names r)).Nodup :=
  (perm_order _ _ _).nodup_iff.2 ((List.nodup_dedup _).filter _)

theorem not_precedes_above (hq : q ≠ []) (hcf : S.opts.contentsFirst = false) :
    ¬ S.Precedes (r ++ q) r := by
  intro h
  generalize hx : r ++ q = x at h
  cases h with
  | above hq' _ =>
    have := congrArg List.length hx
    have := List.length_pos_of_ne_nil hq
    simp only [List.length_append] at *
    omega
  | below _ hcf' =>
    rw [hcf] at hcf'
    cases hcf'
  | beside _ hc =>
    rw [List.append_assoc] at hx
    exact ne_of_sublist nodup_order hc (List.cons.inj (List.append_cancel_left hx)).1.symm

theorem not_precedes_below (hq : q ≠ []) (hcf : S.opts.contentsFirst = true) :
    ¬ S.Precedes r (r ++ q) := by
  intro h
  generalize hx : r ++ q = x at h
  cases h with
  | above _ hcf' =>
    rw [hcf] at hcf'
    cases hcf'
  | below hq' _ =>
    have := congrArg List.length hx
    have := List.length_pos_of_ne_nil hq
    simp only [List.length_append] at *
    omega
  | beside _ hc =>
    rw [List.append_assoc] at hx
    exact ne_of_sublist nodup_order hc (List.cons.inj (List.append_cancel_left hx)).1

omit [Unicode] in
theorem part_at_last {r₁ q₁ q₂ : HostPath} {a b a₁ b₁ : OsStr} (hne : a₁ ≠ b₁)
    (ha : r ++ [a] = r₁ ++ a₁ :: q₁) (hb : r ++ [b] = r₁ ++ b₁ :: q₂) :
    r₁ = r ∧ a₁ = a ∧ b₁ = b := by
  rcases List.eq_nil_or_concat q₁ with rfl | ⟨s, e, rfl⟩
  · obtain ⟨rfl, hae⟩ := List.append_inj' ha rfl
    obtain ⟨rfl, -⟩ := List.cons.inj (List.append_cancel_left hb)
    exact ⟨rfl, (List.singleton_inj.1 hae).symm, rfl⟩
  · rcases List.eq_nil_or_concat q₂ with rfl | ⟨s', e', rfl⟩
    · have hlen := congrArg List.length ha
      have hlen' := congrArg List.length hb
      simp at hlen hlen'
      omega
    · rw [List.concat_eq_append] at ha hb
      obtain ⟨h₁, -⟩ := List.append_inj' (ha.trans (by simp : _ = (r₁ ++ a₁ :: s) ++ [e])) rfl
      obtain ⟨h₂, -⟩ := List.append_inj' (hb.trans (by simp : _ = (r₁ ++ b₁ :: s') ++ [e'])) rfl
      exact absurd (List.cons.inj (List.append_cancel_left (h₁.symm.trans h₂))).1 hne

theorem not_precedes_beside {c' : OsStr} (hd : S.IsEntry r d)
    (hc : [c, c'].Sublist (S.opts.order d (S.names r))) :
    ¬ S.Precedes (r ++ [c']) (r ++ [c]) := by
  intro h
  have hne := ne_of_sublist nodup_order hc
  generalize hx : r ++ [c'] = x at h
  generalize hy : r ++ [c] = y at h
  cases h with
  | above hq _ =>
    have := congrArg List.length hy
    have := congrArg List.length hx
    have := List.length_pos_of_ne_nil hq
    simp only [List.length_append, List.length_singleton] at *
    omega
  | below hq _ =>
    have := congrArg List.length hy
    have := congrArg List.length hx
    have := List.length_pos_of_ne_nil hq
    simp only [List.length_append, List.length_singleton] at *
    omega
  | beside hd' hc' =>
    obtain ⟨rfl, rfl, rfl⟩ := part_at_last (ne_of_sublist nodup_order hc') hx hy
    rw [hd.unique hd'] at hc
    exact not_sublist_swap nodup_order hc hc'

theorem Precedes.ne {p : HostPath} (h : S.Precedes p q) : p ≠ q := by
  cases h with
  | above hq _ => simpa using hq
  | below hq _ => simpa using hq
  | beside _ hc =>
    intro he
    exact ne_of_sublist nodup_order hc (List.cons.inj (List.append_cancel_left he)).1

theorem pairwise_around {contents : List (HostPath × Item)}
    (hbelow : ∀ x ∈ contents, ∃ q, q ≠ [] ∧ x.1 = r ++ q)
    (h : contents.Pairwise fun x y => S.Precedes x.1 y.1) :
    (S.around d r contents).Pairwise fun x y => S.Precedes x.1 y.1 := by
  have hown : (S.own d r).Pairwise fun x y => S.Precedes x.1 y.1 := by
    unfold own
    split_ifs <;> simp
  unfold around
  split_ifs with hcf
  · refine List.pairwise_append.2 ⟨h, hown, fun x hx y hy => ?_⟩
    obtain ⟨q, hq, he⟩ := hbelow x hx
    rw [he, (mem_own.1 hy).2]
    exact .below hq hcf
  · refine List.pairwise_append.2 ⟨hown, h, fun x hx y hy => ?_⟩
    obtain ⟨q, hq, he⟩ := hbelow y hy
    rw [he, (mem_own.1 hx).2]
    exact .above hq (by simpa using hcf)

/-- **Order.** The items of a directory's contents. -/
theorem pairwise_below (h : S.IsEntry r d) (hdir : IntoIter.isNormalDir d = true) :
    (S.below n d r).Pairwise fun x y => S.Precedes x.1 y.1 := by
  induction n generalizing d r with
  | zero => exact List.Pairwise.nil
  | succ n ih =>
    rw [below]
    split_ifs
    · exact List.Pairwise.nil
    · refine List.pairwise_flatMap.2 ⟨fun c hc => ?_, ?_⟩
      · have hmem := (perm_order _ _ _).subset hc
        unfold one
        split
        · simp
        · rename_i d' hchild
          split_ifs with hnormal
          · exact pairwise_around (fun x hx => below_beneath hx) (ih (h.child hdir hmem hchild) hnormal)
          · unfold own
            split_ifs <;> simp
      · refine List.pairwise_iff_forall_sublist.2 fun {c c'} hc x hx y hy => ?_
        obtain ⟨q, hq⟩ := one_beneath hx
        obtain ⟨q', hq'⟩ := one_beneath hy
        rw [hq, hq']
        exact .beside h hc

/-! ## The whole walk -/

theorem nodup_of_pairwise {items : List (HostPath × Item)}
    (h : items.Pairwise fun x y => S.Precedes x.1 y.1) : (items.map Prod.fst).Nodup :=
  List.pairwise_map.2 (h.imp fun hxy => hxy.ne)

theorem exists_height : ∃ n, ∀ q, (S.host.tree S.tree).isPresent (S.dir ++ q) = true →
    q.length ≤ n := by
  refine ⟨((S.host.tree S.tree).keys.map List.length).sum, fun q hq => ?_⟩
  obtain ⟨n, hn⟩ := Tree.isPresent_iff.1 hq
  have hmem := List.mem_map_of_mem (f := List.length) ((S.host.tree S.tree).mem_keys _ _ hn)
  have hle := List.single_le_sum (fun x _ => Nat.zero_le x) _ hmem
  rw [List.length_append] at hle
  omega

theorem walked_all (hroot : S.IsEntry [] S.root)
    (hdir : IntoIter.isNormalDir S.root = true →
      (S.host.tree S.tree).isDir S.dir = true)
    (hheight : ∀ q, (S.host.tree S.tree).isPresent (S.dir ++ q) = true → q.length ≤ n) :
    S.Walked (S.all n) := by
  have hdepth : S.root.depth = 0 := hroot.depth
  have hmem : ∀ x, x ∈ S.all n ↔ (S.skips S.root = false ∧ x = ([], .ok S.root)) ∨
      IntoIter.isNormalDir S.root = true ∧ x ∈ S.below n S.root [] := by
    intro x
    unfold all around
    split_ifs with hnormal
    · simp [mem_own, hnormal, or_comm]
    · simp [mem_own, hnormal]
    · simp [mem_own, hnormal]
  have hord : (S.all n).Pairwise fun x y => S.Precedes x.1 y.1 := by
    unfold all
    split_ifs with hnormal
    · exact pairwise_around (fun x hx => below_beneath hx) (pairwise_below hroot hnormal)
    · unfold own
      split_ifs <;> simp
  constructor
  · exact nodup_of_pairwise hord
  · intro r d hx
    rcases (hmem _).1 hx with ⟨hs, he⟩ | ⟨hnormal, hx⟩
    · obtain ⟨rfl, rfl⟩ : r = [] ∧ d = S.root := by simpa using he
      have := skips_eq_false.1 hs
      exact ⟨hroot, by simp, by simpa [hdepth] using this⟩
    · obtain ⟨hentry, hutf, hs⟩ := sound_below hroot hnormal (by simp) hx
      exact ⟨hentry, hutf, hentry.depth ▸ skips_eq_false.1 hs⟩
  · intro r hholds hpass hmin hmax
    by_cases hr : r = []
    · subst hr
      exact ⟨S.root, (hmem _).2 (Or.inl ⟨skips_eq_false.2 (by rw [hdepth]; exact ⟨hmin, hmax⟩), rfl⟩)⟩
    · obtain ⟨hnormal, hpres⟩ := hholds.resolve_left hr
      obtain ⟨d', hd'⟩ := complete_below (S := S) (d := S.root) (r := []) hr (hheight r hpres)
        (by simpa using hpres) hpass (by omega) (by omega)
      exact ⟨d', (hmem _).2 (Or.inr ⟨hnormal, hd'⟩)⟩
  · intro hpass x hx
    rcases (hmem _).1 hx with ⟨-, he⟩ | ⟨hnormal, hx⟩
    · exact ⟨S.root, by rw [he]⟩
    · refine quiet_below (r := []) (by simpa using hdir hnormal) (fun q hq => ?_) hx
      exact hpass q (Or.inr ⟨hnormal, by simpa using hq⟩)
  · intro r q i j hq hi hj
    split_ifs with hcf
    · exact sublist_of_pairwise hord hj hi (by simp [hq]) (not_precedes_below hq hcf)
    · exact sublist_of_pairwise hord hi hj (by simp [hq]) (not_precedes_above hq (by simpa using hcf))
  · intro r d c c' i j hd hc hi hj
    have hne := ne_of_sublist nodup_order hc
    exact sublist_of_pairwise hord hi hj (by simp [hne]) (not_precedes_beside hd hc)

def Exhausts (h : Host) (it : IntoIter) (items : List Item) : Prop :=
  ∃ N, ∀ fuel ≥ N, ∀ n ≥ N, it.drive h fuel n = some items

/-- Whether the root's directory, if the root is one, can be opened, and is at the site's path. -/
def Opens (S : Site) (v : Vfs) (p : VirtualPath) : Prop :=
  IntoIter.isNormalDir S.root = true → ∃ dir, v.openDir p S.host = .ok dir ∧
    dir.inner.tree = S.tree ∧ (S.host.tree S.tree).pathOf dir.inner.ino = some S.dir

/-- **What a walk yields.** -/
theorem exhausts_walked (S : Site) (v : Vfs) (p : VirtualPath) (display : PathBuf)
    (hfollow : S.opts.followLinks = false)
    (hroot : IntoIter.rootEntry S.host v p display = .ok S.root) (hlink : S.root.isSymlink = false)
    (hopen : S.Opens v p) : ∃ items, S.Walked items ∧
      Exhausts S.host (IntoIter.rooted v p display S.opts) (items.map Prod.snd) := by
  obtain ⟨n, hn⟩ := exists_height (S := S)
  have hdir : IntoIter.isNormalDir S.root = true → (S.host.tree S.tree).isDir S.dir = true := by
    intro hnormal
    obtain ⟨dir, -, -, hpath⟩ := hopen hnormal
    exact Tree.isDir_iff.2 ⟨_, Tree.pathOf_eq_some.1 hpath⟩
  refine ⟨S.all n, walked_all (isEntry_root hroot) hdir hn, ?_⟩
  cases hnormal : IntoIter.isNormalDir S.root with
  | false => exact drive_leaf hfollow hroot hlink hnormal
  | true =>
    obtain ⟨dir, hdir, htree, hpath⟩ := hopen hnormal
    exact drive_dir hfollow hroot hnormal hdir htree hpath hn

def YieldsAll (S : Site) (items : List (HostPath × Item)) : Prop :=
  ∀ r, S.Holds r → S.opts.minDepth ≤ r.length → r.length ≤ S.opts.maxDepth →
    ∃ d, (r, .ok d) ∈ items

end Site

end Seahaven.Vfs

namespace Seahaven.Vfs

open Host OsStr

section Fixture

attribute [local instance] composed

/-- A walk of `/work` over one tree. -/
def workSite (t : Tree) : Site where
  host := .ofTrees [t]
  tree := 0
  dir := []
  opts := .default
  root := ⟨⟨[os "work"], work_valid⟩, [os "work"], os "work", 0, ⟨0, 0, .dir, t.attr 0⟩, false,
    false⟩

def plainTree : Tree := .ofEntries [([os "a"], .dir), ([os "a", os "b"], .file), ([os "c"], .file)]

theorem work_exhausts : ∃ items, (workSite plainTree).Walked items ∧
    Site.Exhausts (workSite plainTree).host
      (IntoIter.rooted workVfs ⟨[os "work"], by decide⟩ [os "work"] .default)
      (items.map Prod.snd) :=
  Site.exhausts_walked (workSite plainTree) workVfs ⟨[os "work"], by decide⟩ [os "work"] rfl
    (by decide) rfl fun _ => ⟨⟨⟨0, 0⟩, true⟩, by decide, rfl, by decide⟩

def foreignTree : Tree := .ofEntries [([[.raw 0xff]], .file)]

/-- **A name that is no text.** The walk yields the root alone. -/
theorem foreign_not_yieldsAll : Site.Exhausts (workSite foreignTree).host
    (IntoIter.rooted workVfs ⟨[os "work"], by decide⟩ [os "work"] .default)
    [.ok (workSite foreignTree).root] ∧
      ¬ (workSite foreignTree).YieldsAll [([], .ok (workSite foreignTree).root)] := by
  have hnames : (workSite foreignTree).names [] = [] := by decide
  constructor
  · obtain ⟨n, hn⟩ := Site.exists_height (S := workSite foreignTree)
    have hbelow : (workSite foreignTree).below n (workSite foreignTree).root [] = [] := by
      cases n with
      | zero => rfl
      | succ n =>
        rw [Site.below, hnames]
        rfl
    have hall : (workSite foreignTree).all n = [([], .ok (workSite foreignTree).root)] := by
      rw [Site.all, if_pos (by decide), hbelow]
      rfl
    have hdrive := @Site.drive_dir composed (workSite foreignTree) workVfs
      ⟨[os "work"], by decide⟩ [os "work"] rfl (by decide) (by decide) ⟨⟨0, 0⟩, true⟩ (by decide)
      rfl (by decide) n hn
    rw [hall] at hdrive
    exact hdrive
  · intro hall
    obtain ⟨d, hd⟩ := hall [[.raw 0xff]] (Or.inr ⟨by decide, by decide⟩) (by decide) (by decide)
    simp at hd

end Fixture

end Seahaven.Vfs
