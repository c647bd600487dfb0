import Seahaven.Host.Walk
import Seahaven.Vfs.Mount

/-!
# Respelled mount points

Some hosts cannot tell names apart that fold alike. A table is built for them too: no two of its
points may fold alike. A path is looked up in the table by its exact components, though.

1. `FoldedTree`: a directory of such a host, and what a path in it finds.
2. `MountTable.Shielded`: a path leads where the mount point that its folded components lie beneath
   says, and into nothing that a mount shadows.
3. That holds of a path if and only if it spells that mount point.
-/

namespace Seahaven.Vfs

open Host OsStr

variable [Unicode]

/-! ## A host that goes by folds -/

def folded (p : List OsStr) : List OsStr := p.map foldForCollision

/-- A host directory in which no two paths fold alike. -/
structure FoldedTree where
  tree : Tree
  apart : ∀ p q, tree.isPresent p = true → tree.isPresent q = true → folded p = folded q → p = q

def FoldedTree.find (t : FoldedTree) (p : HostPath) : Option HostPath :=
  t.tree.keys.find? fun q => t.tree.isPresent q ∧ folded q = folded p

variable {T : FoldedTree} {p q r : HostPath}

theorem FoldedTree.find_eq_some : T.find p = some q ↔
    T.tree.isPresent q = true ∧ folded q = folded p := by
  unfold find
  constructor
  · intro h
    simpa using List.find?_some h
  · rintro ⟨hq, hfold⟩
    have hex : ∃ r, T.find p = some r := by
      obtain ⟨n, hn⟩ := Tree.isPresent_iff.1 hq
      exact Option.isSome_iff_exists.1 (List.find?_isSome.2
        ⟨q, T.tree.mem_keys _ _ hn, by simpa using ⟨hq, hfold⟩⟩)
    obtain ⟨r, hr⟩ := hex
    have hr' : T.tree.isPresent r = true ∧ folded r = folded p := by
      simpa using List.find?_some hr
    obtain rfl := T.apart r q hr'.1 hq (hr'.2.trans hfold.symm)
    exact hr

theorem FoldedTree.prefix_of_find {d : HostPath} (hd : T.find r = some d) (hq : T.find p = some q)
    (hdq : d <+: q) : folded r <+: folded p := by
  rw [← (find_eq_some.1 hd).2, ← (find_eq_some.1 hq).2]
  exact hdq.map _

/-! ## Where a path is meant to lead -/

namespace MountTable

variable (t : MountTable)

def Respells (p : VirtualPath) (m : Mount) : Prop := folded m.at.components <+: folded p.components

/-- The mount such a host means by a path: of those it lies beneath, one of the deepest. -/
structure Meant (p : VirtualPath) (m : Mount) : Prop where
  mem : m ∈ t.mounts
  respells : Respells p m
  deepest : ∀ m' ∈ t.mounts, Respells p m' → m'.at.components.length ≤ m.at.components.length

/-- Whether a path is governed as its host means it, or refused, and leads into nothing that a mount
shadows. -/
structure Shielded (p : VirtualPath) : Prop where
  governed : ∀ m, t.Meant p m → ∀ m' rest, t.resolve p = some (m', rest) → m' = m
  hidden : ∀ m rest, t.resolve p = some (m, rest) → ∀ n ∈ t.mounts, ∀ s, s ≠ [] →
    n.at.components = m.at.components ++ s → ∀ T : FoldedTree, ∀ d q, T.find s = some d →
      T.find rest = some q → ¬ d <+: q

/-- Whether the point of the mount a host means by a path is the path's own spelling of it, unless
the path lies beneath no mount point as it is spelled. -/
def Spelled (p : VirtualPath) : Prop :=
  ∀ m, t.Meant p m → m.at.components <+: p.components ∨
    ∀ m' ∈ t.mounts, ¬ m'.at.components <+: p.components

variable {t} {p : VirtualPath} {m m' : Mount}

theorem respells_of_startsWith (h : m.at.components <+: p.components) : Respells p m := h.map _

theorem exists_meant (hm : m ∈ t.mounts) (h : Respells p m) : ∃ m', t.Meant p m' := by
  have hfirst : ∀ l : List Mount, l.Pairwise Deeper → (∃ m ∈ l, Respells p m) →
      ∃ m ∈ l, Respells p m ∧ ∀ m' ∈ l, Respells p m' →
        m'.at.components.length ≤ m.at.components.length := by
    intro l hl
    induction l with
    | nil => simp
    | cons a l ih =>
      obtain ⟨ha, hl⟩ := List.pairwise_cons.1 hl
      rintro ⟨x, hx, hpx⟩
      by_cases hpa : Respells p a
      · exact ⟨a, by simp, hpa, List.forall_mem_cons.2 ⟨fun _ => le_rfl, fun y hy _ => ha y hy⟩⟩
      · have hxl : x ∈ l := (List.mem_cons.1 hx).resolve_left fun h => hpa (h ▸ hpx)
        obtain ⟨y, hy, hpy, hmax⟩ := ih hl ⟨x, hxl, hpx⟩
        exact ⟨y, List.mem_cons_of_mem _ hy, hpy,
          List.forall_mem_cons.2 ⟨fun h => absurd h hpa, hmax⟩⟩
  obtain ⟨m', hm', hp, hmax⟩ := hfirst t.mounts t.sorted ⟨m, hm, h⟩
  exact ⟨m', hm', hp, hmax⟩

theorem eq_of_meant {rest : List OsStr} (hm : t.Meant p m) (hpre : m.at.components <+: p.components)
    (h : t.resolve p = some (m', rest)) : m' = m := by
  obtain ⟨hmem, hp, hlong⟩ := resolve_eq_some.1 h
  have hbelow := hlong m hm.mem hpre
  have hlen := hm.deepest m' hmem (respells_of_startsWith (hp ▸ List.prefix_append _ _))
  exact eq_of_at_eq hmem hm.mem
    (VirtualPath.ext (hbelow.eq_of_length (le_antisymm hbelow.length_le hlen)).symm)

/-- **Respelling.** A path leads where a host that goes by folds means it to, or is refused, and
into nothing that a mount shadows, if and only if it spells the mount point it folds beneath. -/
theorem shielded_iff (t : MountTable) (p : VirtualPath) : t.Shielded p ↔ t.Spelled p := by
  constructor
  · intro h m hm
    cases hres : t.resolve p with
    | none => exact Or.inr (resolve_eq_none.1 hres)
    | some x =>
      obtain rfl := h.governed m hm x.1 x.2 hres
      exact Or.inl ((resolve_eq_some.1 hres).2.1 ▸ List.prefix_append _ _)
  · intro h
    have hgov : ∀ m, t.Meant p m → ∀ m' rest, t.resolve p = some (m', rest) → m' = m := by
      intro m hm m' rest hres
      obtain ⟨hmem, hp, -⟩ := resolve_eq_some.1 hres
      have hpre := (h m hm).resolve_right fun hno => hno m' hmem (hp ▸ List.prefix_append _ _)
      exact eq_of_meant hm hpre hres
    refine ⟨hgov, fun m rest hres n hn s hs hat T d q hd hq hdq => ?_⟩
    obtain ⟨-, hp, -⟩ := resolve_eq_some.1 hres
    have hresp : Respells p n := by
      rw [Respells, hat, hp, folded, folded, List.map_append, List.map_append,
        List.prefix_append_right_inj]
      exact FoldedTree.prefix_of_find hd hq hdq
    obtain ⟨m', hm'⟩ := exists_meant hn hresp
    obtain rfl := hgov m' hm' m rest hres
    have hlen := hm'.deepest n hn hresp
    rw [hat, List.length_append] at hlen
    exact hs (List.length_eq_zero_iff.1 (by omega))

end MountTable

end Seahaven.Vfs

namespace Seahaven.Vfs

open Host OsStr

section Fixture

attribute [local instance] composed

/-- A host with the directories `/p`, a project, and `/s`, an empty one. -/
def projectHost : MountHost where
  canonicalize p := .ok (p.drop 1)
  openAmbientDir p := .ok (if p = [os "p"] then ⟨0, 0⟩ else ⟨1, 0⟩)

/-- The project at `/work`, with the empty directory over its source-control marker. -/
def projectBuilder : MountTableBuilder :=
  ⟨[⟨⟨[os "work"], work_valid⟩, [os "/", os "p"], .readWrite⟩,
    ⟨⟨[os "work", os ".git"], by decide⟩, [os "/", os "s"], .readOnly⟩]⟩

def projectMount : Mount :=
  ⟨⟨[os "work"], work_valid⟩, ⟨0, 0⟩, some [os "/", os "p"], some [os "p"], .readWrite, true⟩

def markerMount : Mount :=
  ⟨⟨[os "work", os ".git"], by decide⟩, ⟨1, 0⟩, some [os "/", os "s"], some [os "s"], .readOnly,
    false⟩

theorem build_project : (projectBuilder.build projectHost).map MountTable.mounts =
    .ok [markerMount, projectMount] := by decide

/-- **`.GIT`.** The table is built, and `/work/.GIT/config` leads into the project's own marker. -/
theorem marker_not_shielded : ∃ t, projectBuilder.build projectHost = .ok t ∧
    ¬ t.Shielded ⟨[os "work", os ".GIT", os "config"], by decide⟩ := by
  cases hb : projectBuilder.build projectHost with
  | error e =>
    have := build_project
    rw [hb] at this
    cases this
  | ok t =>
    have hmounts : t.mounts = [markerMount, projectMount] := by
      have := build_project
      rw [hb] at this
      exact Except.ok.inj this
    refine ⟨t, rfl, fun h => ?_⟩
    have hmeant : t.Meant ⟨[os "work", os ".GIT", os "config"], by decide⟩ markerMount := by
      constructor
      · simp [hmounts]
      · unfold MountTable.Respells
        decide
      · have hdeep : ∀ m' ∈ [markerMount, projectMount],
            m'.at.components.length ≤ markerMount.at.components.length := by decide
        exact fun m' hm' _ => hdeep m' (hmounts ▸ hm')
    have hres : t.resolve ⟨[os "work", os ".GIT", os "config"], by decide⟩ =
        some (projectMount, [os ".GIT", os "config"]) := by
      rw [MountTable.resolve, hmounts]
      decide
    exact absurd (h.governed _ hmeant _ _ hres) (by decide)

end Fixture

end Seahaven.Vfs
