import Seahaven.Host.Call

/-!
# What an edit keeps

Two invariants of a tree that is edited, each with what an edit has to meet to keep it.

1. `LinksAre L`: every link is one `L` allows where it stands.
2. `Sheltered C t₀`: what stood at the paths of `C` in `t₀` stands there still, and the objects all
   of whose names were there are as they were and have no further name.
-/

namespace Seahaven.Host

open OsStr

namespace Tree

/-! ## Links -/

/-- Every link is one `L` allows at its path. -/
def LinksAre (L : HostPath → OsStr → Prop) (t : Tree) : Prop :=
  ∀ p target, t.linkAt p = some target → L p target

/-- The links an edit makes or moves are allowed where they come to stand. -/
def AllowsLinks (L : HostPath → OsStr → Prop) (t : Tree) : Edit → Prop
  | .add dir name (.link target) _ => L (dir ++ [name]) target
  | .add _ _ _ _ => True
  | .alias src dir name => ∀ target, t.linkAt src = some target → L (dir ++ [name]) target
  | .prune _ _ => True
  | .move src dir name =>
    ∀ s target, t.linkAt (src ++ s) = some target → L (dir ++ [name] ++ s) target
  | .set _ _ => True

variable {L : HostPath → OsStr → Prop} {t t' : Tree} {e : Edit}

theorem linkAt_congr {p q : HostPath} (h : t'.node p = t.node q) : t'.linkAt p = t.linkAt q := by
  rw [linkAt, linkAt, h]

theorem linksAre_of_keys (h : ∀ p ∈ t.keys, ∀ target ∈ t.linkAt p, L p target) : t.LinksAre L := by
  intro p target hp
  obtain ⟨i, hi⟩ := linkAt_eq_some.1 hp
  exact h p (t.mem_keys p _ hi) target hp

theorem LinksAre.apply (hL : t.LinksAre L) (he : t.AllowsLinks L e) (ht : t.apply e = .ok t') :
    t'.LinksAre L := by
  intro p target hp
  cases e with
  | add dir name kind a =>
    obtain ⟨-, hnode, -⟩ := apply_add ht
    by_cases hq : p = dir ++ [name]
    · obtain ⟨i, hi⟩ := linkAt_eq_some.1 hp
      rw [hnode, if_pos hq] at hi
      obtain rfl : kind = .link target := congrArg Node.kind (Option.some.inj hi)
      exact hq ▸ he
    · exact hL p target ((linkAt_congr (by rw [hnode, if_neg hq])).symm.trans hp)
  | «alias» src dir name =>
    obtain ⟨n, hn, -, -, hnode, -⟩ := apply_alias ht
    by_cases hq : p = dir ++ [name]
    · have hsrc : t'.linkAt p = t.linkAt src := linkAt_congr (by rw [hnode, if_pos hq, hn])
      exact hq ▸ he target (hsrc.symm.trans hp)
    · exact hL p target ((linkAt_congr (by rw [hnode, if_neg hq])).symm.trans hp)
  | prune dir name =>
    obtain ⟨hnode, -⟩ := apply_prune ht
    by_cases hq : dir ++ [name] <+: p
    · rw [linkAt, hnode, if_pos hq] at hp
      cases hp
    · exact hL p target ((linkAt_congr (by rw [hnode, if_neg hq])).symm.trans hp)
  | move src dir name =>
    obtain ⟨-, hnode, -⟩ := apply_move ht
    cases ho : origin src (dir ++ [name]) p with
    | none =>
      rw [linkAt, hnode, ho] at hp
      cases hp
    | some r =>
      have hr : t.linkAt r = some target :=
        (linkAt_congr (by rw [hnode, ho, Option.bind_some])).symm.trans hp
      rcases origin_eq_some.1 ho with ⟨s, rfl, rfl⟩ | ⟨-, -, rfl⟩
      · exact he s target hr
      · exact hL p target hr
  | set i a =>
    obtain ⟨hnode, -⟩ := apply_set ht
    exact hL p target ((linkAt_congr (by rw [hnode])).symm.trans hp)

/-! ## Sheltered objects -/

variable {C : HostPath → Prop} {t₀ : Tree}

/-- An object all of whose names are in `C`. -/
structure Hides (C : HostPath → Prop) (t : Tree) (i : Nat) : Prop where
  named : ∃ p n, t.node p = some n ∧ n.ino = i
  only : ∀ p n, t.node p = some n → n.ino = i → C p

/-- What `C` held in `t₀` is where it was and as it was. -/
structure Sheltered (C : HostPath → Prop) (t₀ t : Tree) : Prop where
  stays : ∀ p n, C p → t₀.node p = some n → t.node p = some n
  same : ∀ i, t₀.Hides C i → t.attr i = t₀.attr i
  names : ∀ i, t₀.Hides C i → ∀ p n, t.node p = some n → n.ino = i → t₀.node p = some n

/-- An edit that neither moves nor removes what `C` held in `t₀`, nor names nor changes an object
all of whose names were there. -/
def Spares (C : HostPath → Prop) (t₀ : Tree) : Edit → Prop
  | .add _ _ _ _ => True
  | .alias src _ _ => ¬ C src
  | .prune dir name => ∀ p, C p → t₀.isPresent p = true → ¬ dir ++ [name] <+: p
  | .move src dir name => ∀ p, C p → t₀.isPresent p = true → ¬ src <+: p ∧ ¬ dir ++ [name] <+: p
  | .set i _ => ¬ t₀.Hides C i

theorem Sheltered.refl : Sheltered C t t := ⟨fun _ _ _ h => h, fun _ _ => rfl, fun _ _ _ _ h _ => h⟩

theorem Sheltered.not_hides (h : Sheltered C t₀ t) {p : HostPath} {n : Node}
    (hn : t.node p = some n) (hp : ¬ C p) : ¬ t₀.Hides C n.ino :=
  fun hi => hp (hi.only p n (h.names _ hi p n hn rfl) rfl)

theorem Sheltered.present (h : Sheltered C t₀ t) {p : HostPath} (hp : C p)
    (hpres : t₀.isPresent p = true) : t.isPresent p = true := by
  obtain ⟨n, hn⟩ := isPresent_iff.1 hpres
  exact isPresent_iff.2 ⟨n, h.stays p n hp hn⟩

theorem Sheltered.lt_next (h : Sheltered C t₀ t) {i : Nat} (hi : t₀.Hides C i) : i < t.next := by
  obtain ⟨p, n, hn, rfl⟩ := hi.named
  exact t.lt_next p n (h.stays p n (hi.only p n hn rfl) hn)

theorem Sheltered.apply (h : Sheltered C t₀ t) (he : Spares C t₀ e) (ht : t.apply e = .ok t') :
    Sheltered C t₀ t' := by
  cases e with
  | add dir name kind a =>
    obtain ⟨hins, hnode, hattr⟩ := apply_add ht
    refine ⟨fun p n hp hn => ?_, fun i hi => ?_, fun i hi p n hn hin => ?_⟩
    · have hn' := h.stays p n hp hn
      rw [hnode, if_neg, hn']
      rintro rfl
      rw [hins.free] at hn'
      cases hn'
    · rw [hattr, if_neg (h.lt_next hi).ne, h.same i hi]
    · rw [hnode] at hn
      split_ifs at hn
      · obtain rfl := Option.some.inj hn
        exact absurd hin (h.lt_next hi).ne'
      · exact h.names i hi p n hn hin
  | «alias» src dir name =>
    obtain ⟨m, hm, -, hins, hnode, hattr⟩ := apply_alias ht
    refine ⟨fun p n hp hn => ?_, fun i hi => by rw [hattr, h.same i hi], fun i hi p n hn hin => ?_⟩
    · have hn' := h.stays p n hp hn
      rw [hnode, if_neg, hn']
      rintro rfl
      rw [hins.free] at hn'
      cases hn'
    · rw [hnode] at hn
      split_ifs at hn
      · obtain rfl := Option.some.inj hn
        obtain rfl := hin
        exact absurd hi (h.not_hides hm he)
      · exact h.names i hi p n hn hin
  | prune dir name =>
    obtain ⟨hnode, hattr⟩ := apply_prune ht
    refine ⟨fun p n hp hn => ?_, fun i hi => by rw [hattr, h.same i hi], fun i hi p n hn hin => ?_⟩
    · rw [hnode, if_neg (he p hp (isPresent_iff.2 ⟨n, hn⟩)), h.stays p n hp hn]
    · rw [hnode] at hn
      split_ifs at hn
      exact h.names i hi p n hn hin
  | move src dir name =>
    obtain ⟨-, hnode, hattr⟩ := apply_move ht
    refine ⟨fun p n hp hn => ?_, fun i hi => by rw [hattr, h.same i hi], fun i hi p n hn hin => ?_⟩
    · obtain ⟨hsrc, hdst⟩ := he p hp (isPresent_iff.2 ⟨n, hn⟩)
      rw [hnode, origin_outside hdst hsrc, Option.bind_some, h.stays p n hp hn]
    · rw [hnode] at hn
      obtain ⟨r, hr, hn⟩ := Option.bind_eq_some_iff.1 hn
      have hr₀ := h.names i hi r n hn hin
      rcases origin_eq_some.1 hr with ⟨s, rfl, rfl⟩ | ⟨-, -, rfl⟩
      · -- nothing beneath `src` is sheltered
        have hC := hi.only _ n hr₀ hin
        exact absurd (List.prefix_append _ _) (he _ hC (isPresent_iff.2 ⟨n, hr₀⟩)).1
      · exact hr₀
  | set j a =>
    obtain ⟨hnode, hattr⟩ := apply_set ht
    refine ⟨fun p n hp hn => by rw [hnode, h.stays p n hp hn], fun i hi => ?_,
      fun i hi p n hn hin => h.names i hi p n (hnode ▸ hn) hin⟩
    rw [hattr, if_neg, h.same i hi]
    rintro rfl
    exact he hi

end Tree

end Seahaven.Host
