import Seahaven.Shell.Trust
import Seahaven.Vfs.Mount

/-!
# Consent and authority

Consent compares sets of mounts entry by entry, while what a namespace reaches is decided by the
longest mount point over the whole table. Dropping an entry is therefore not always a narrowing: a
mount point that only the larger set has shadows a directory which the smaller set leaves to the
mount above.
-/

namespace Seahaven.Trust

open Vfs Host

/-- The host tree that tables are built over, and what is present in it. -/
structure ConsentHost extends MountHost where
  /-- Whether an object has this canonical path. -/
  present : HostPath → Bool
  present_parent : ∀ p c, present (p ++ [c]) = true → present p = true

theorem ConsentHost.present_above {host : ConsentHost} {p q : HostPath} (hpq : p <+: q)
    (h : host.present q = true) : host.present p = true := by
  obtain ⟨s, rfl⟩ := hpq
  induction s using List.reverseRecOn with
  | nil => rwa [List.append_nil] at h
  | append_singleton s c ih =>
    rw [← List.append_assoc] at h
    exact ih (host.present_parent _ _ h)

section

variable [Unicode]

def grantedSet (table : MountTable) : GrantedSet :=
  .new <| table.mounts.filterMap fun m =>
    m.hostPath.map fun host => ⟨m.at.asStr, host, m.access = .readWrite⟩

namespace ConsentHost

variable (host : ConsentHost)

/-- `set` describes `table`, which was built over this host. -/
def Describes (set : GrantedSet) (table : MountTable) : Prop :=
  set = grantedSet table ∧ ∃ b : MountTableBuilder, b.build host.toMountHost = .ok table

/-- The mount that governs the virtual path `p` lets it name the host object `o`. -/
structure Names (table : MountTable) (p : VirtualPath) (o : HostPath) (m : Mount) : Prop where
  present : host.present o = true
  governs : ∃ rest root, table.resolve p = some (m, rest) ∧ m.canonicalHostPath = some root ∧
    o = root ++ rest

/-- Every object that a path of `r` names is named by a path of `g`, with at least the access. -/
def Within (r g : MountTable) : Prop :=
  ∀ p o m, host.Names r p o m → ∃ q m', host.Names g q o m' ∧
    (m.access.isWritable = true → m'.access.isWritable = true)

/-- A mount point of `g` that `r` leaves to a mount above it, where that mount's host directory
holds an object. -/
def Uncovers (r g : MountTable) : Prop :=
  ∃ e ∈ g.mounts, ∃ o m, host.Names r e.at o m ∧ m.at ≠ e.at

variable {host}

theorem uncovers_iff {r g : MountTable} : host.Uncovers r g ↔
    (g.mounts.any fun e => (r.resolve e.at).any fun x => x.1.at ≠ e.at &&
      x.1.canonicalHostPath.any fun root => host.present (root ++ x.2)) = true := by
  simp only [List.any_eq_true, Option.any_eq_true, Bool.and_eq_true, decide_eq_true_eq]
  constructor
  · rintro ⟨e, he, o, m, ⟨hpres, rest, root, hres, hroot, rfl⟩, hne⟩
    exact ⟨e, he, (m, rest), hres, hne, root, hroot, hpres⟩
  · rintro ⟨e, he, ⟨m, rest⟩, hres, hne, root, hroot, hpres⟩
    exact ⟨e, he, root ++ rest, m, ⟨hpres, rest, root, hres, hroot, rfl⟩, hne⟩

instance (r g : MountTable) : Decidable (host.Uncovers r g) :=
  decidable_of_iff _ uncovers_iff.symm

theorem mem_grantedSet {table : MountTable} {w : GrantedMount} :
    w ∈ (grantedSet table).mounts ↔ ∃ m ∈ table.mounts, ∃ p, m.hostPath = some p ∧
      w = ⟨m.at.asStr, p, m.access = .readWrite⟩ := by
  simp only [grantedSet, GrantedSet.mem_new, List.mem_filterMap, Option.map_eq_some_iff,
    eq_comm (b := w)]

theorem exists_counterpart {r g : GrantedSet} {tr tg : MountTable} (hr : host.Describes r tr)
    (hg : host.Describes g tg) (hsub : r.isSubsetOf g = true) {m : Mount} (hm : m ∈ tr.mounts) :
    ∃ m' ∈ tg.mounts, m'.at = m.at ∧ m'.canonicalHostPath = m.canonicalHostPath ∧
      (m.access.isWritable = true → m'.access.isWritable = true) := by
  obtain ⟨rfl, br, hbr⟩ := hr
  obtain ⟨rfl, bg, hbg⟩ := hg
  obtain ⟨p, c, hp, hc, hcan⟩ := (MountTable.built_of_build hbr).opened m hm
  obtain ⟨w, hw, hans⟩ := GrantedSet.isSubsetOf_iff.1 hsub _ (mem_grantedSet.2 ⟨m, hm, p, hp, rfl⟩)
  obtain ⟨m', hm', p', hp', rfl⟩ := mem_grantedSet.1 hw
  obtain ⟨hat, hhost, hacc⟩ := GrantedSet.answers_iff.1 hans
  obtain ⟨p'', c', hp'', hc', hcan'⟩ := (MountTable.built_of_build hbg).opened m' hm'
  refine ⟨m', hm', VirtualPath.asStr_inj hat, ?_, ?_⟩
  · obtain rfl : p' = p'' := Option.some.inj (hp'.symm.trans hp'')
    obtain rfl : p' = p := hhost
    rw [hc, hc', Except.ok.inj (hcan'.symm.trans hcan)]
  · intro hw
    cases ha : m.access with
    | readOnly => simp [ha, Access.isWritable] at hw
    | readWrite =>
      have : m'.access = .readWrite := by simpa [ha] using hacc
      rw [this]
      rfl

theorem at_eq_of_common {table : MountTable} (hb : MountTable.Built host.toMountHost table)
    {m m' : Mount} (hm : m ∈ table.mounts) (hm' : m' ∈ table.mounts) {root root' o : HostPath}
    (hroot : m.canonicalHostPath = some root) (hroot' : m'.canonicalHostPath = some root')
    (ho : root <+: o) (ho' : root' <+: o) : m = m' := by
  refine MountTable.eq_of_at_eq hm hm' ?_
  by_contra hne
  obtain ⟨h₁, h₂⟩ := hb.apart m hm m' hm' root root' hroot hroot' hne
  rcases List.prefix_or_prefix_of_prefix ho ho' with h | h
  · exact h₁ h
  · exact h₂ h

section

variable {r g : GrantedSet} {tr tg : MountTable} (hr : host.Describes r tr)
  (hg : host.Describes g tg) (hsub : r.isSubsetOf g = true)

include hr hg hsub

theorem not_within_of_uncovers (hcover : host.Uncovers tr tg) : ¬ host.Within tr tg := by
  have hbuilt : MountTable.Built host.toMountHost tg := by
    obtain ⟨-, bg, hbg⟩ := hg
    exact MountTable.built_of_build hbg
  obtain ⟨e, he, o, m, hnames, hne⟩ := hcover
  intro hwithin
  obtain ⟨q, m', hnames', -⟩ := hwithin _ _ _ hnames
  obtain ⟨rest, root, hres, hroot, rfl⟩ := hnames.governs
  obtain ⟨rest', root', hres', hroot', ho⟩ := hnames'.governs
  obtain ⟨hm, hcomp, -⟩ := MountTable.resolve_eq_some.1 hres
  obtain ⟨hm', hcomp', -⟩ := MountTable.resolve_eq_some.1 hres'
  obtain ⟨c, hc, hat, hcan, -⟩ := exists_counterpart hr hg hsub hm
  -- only the counterpart of `m` reaches into its directory, and only by the path `e.at`
  obtain rfl : c = m' := at_eq_of_common hbuilt hc hm' (hcan.trans hroot) hroot'
    (List.prefix_append root rest) (ho.symm ▸ List.prefix_append _ _)
  obtain rfl : root = root' := Option.some.inj ((hcan.trans hroot).symm.trans hroot')
  obtain rfl := List.append_cancel_left ho
  obtain rfl : q = e.at := VirtualPath.ext (by rw [hcomp', hcomp, hat])
  rw [MountTable.resolve_at he] at hres'
  obtain ⟨rfl, -⟩ := Prod.mk.inj (Option.some.inj hres')
  exact hne hat.symm

theorem within_of_not_uncovers (hcover : ¬ host.Uncovers tr tg) : host.Within tr tg := by
  intro p o m hnames
  obtain ⟨rest, root, hres, hroot, rfl⟩ := hnames.governs
  obtain ⟨hm, hcomp, hlong⟩ := MountTable.resolve_eq_some.1 hres
  obtain ⟨c, hc, hat, hcan, hacc⟩ := exists_counterpart hr hg hsub hm
  cases hq : tg.resolve p with
  | none =>
    exact absurd (hcomp ▸ hat ▸ List.prefix_append _ _) (MountTable.resolve_eq_none.1 hq c hc)
  | some x =>
    obtain ⟨e, rest'⟩ := x
    obtain ⟨he, hcomp', hlong'⟩ := MountTable.resolve_eq_some.1 hq
    by_cases hce : c = e
    · subst hce
      refine ⟨p, c, ⟨hnames.present, rest', root, hq, hcan.trans hroot, ?_⟩, hacc⟩
      rw [hcomp, hat] at hcomp'
      rw [List.append_cancel_left hcomp']
    · -- `e` lies between the counterpart and `p`, over an object `r` leaves to `m`
      have hpre : m.at.components <+: e.at.components :=
        hat ▸ hlong' c hc (hcomp ▸ hat ▸ List.prefix_append _ _)
      obtain ⟨s, hs⟩ := hpre
      have hrest : rest = s ++ rest' := by
        rw [hcomp, ← hs, List.append_assoc] at hcomp'
        exact List.append_cancel_left hcomp'
      refine absurd ⟨e, he, root ++ s, m, ⟨?_, s, root, ?_, hroot, rfl⟩, ?_⟩ hcover
      · refine present_above ?_ hnames.present
        rw [hrest, ← List.append_assoc]
        exact List.prefix_append _ _
      · refine MountTable.resolve_eq_some.2 ⟨hm, hs.symm, fun m' hm' hp => hlong m' hm' ?_⟩
        exact hp.trans (hcomp' ▸ List.prefix_append _ _)
      · intro hme
        exact hce (MountTable.eq_of_at_eq hc he (hat.trans hme))

/-- **When narrowing is a narrowing.** A set accepted as a subset of another stays within what the
other reaches exactly when it uncovers nothing: no mount point that only the other has lies over
an object of a directory that this set grants. -/
theorem within_iff_not_uncovers : host.Within tr tg ↔ ¬ host.Uncovers tr tg :=
  ⟨fun hwithin hcover => not_within_of_uncovers hr hg hsub hcover hwithin,
    within_of_not_uncovers hr hg hsub⟩

end

end ConsentHost

end

/-! ### A project and the directory vendored into it -/

/-- A host where these objects and the directories above them are present. -/
def hostOf (objects : List HostPath) : ConsentHost where
  canonicalize p := .ok p.tail
  openAmbientDir _ := .ok ⟨0, 0⟩
  present p := objects.any fun o => p.isPrefixOf o
  present_parent p c h := by
    obtain ⟨o, ho, hp⟩ := List.any_eq_true.1 h
    exact List.any_eq_true.2 ⟨o, ho, List.isPrefixOf_iff_prefix.2
      ((List.prefix_append _ _).trans (List.isPrefixOf_iff_prefix.1 hp))⟩

section

local instance : Unicode := composed

def projectEntry : Entry :=
  ⟨⟨[os "work"], by decide⟩, [os "/", os "srv", os "app"], .readWrite⟩

def vendorEntry : Entry :=
  ⟨⟨[os "work", os "vendor"], by decide⟩, [os "/", os "srv", os "vendor"], .readOnly⟩

/-- The table of these entries over a host that holds `objects`, empty if it cannot be built. -/
def tableOf (objects : List HostPath) (entries : List Entry) : MountTable :=
  match (MountTableBuilder.mk entries).build (hostOf objects).toMountHost with
  | .ok t => t
  | .error _ => .fromMounts [] (by simp)

theorem describes_tableOf {objects : List HostPath} {entries : List Entry}
    (h : ((MountTableBuilder.mk entries).build (hostOf objects).toMountHost).isOk = true) :
    (hostOf objects).Describes (grantedSet (tableOf objects entries))
      (tableOf objects entries) := by
  refine ⟨rfl, ⟨entries⟩, ?_⟩
  unfold tableOf
  cases hb : (MountTableBuilder.mk entries).build (hostOf objects).toMountHost with
  | ok t => rfl
  | error e => simp [hb, Except.isOk, Except.toBool] at h

/-- Where the project holds nothing under the vendored point, dropping that mount is a narrowing. -/
theorem within_of_bare_project : (hostOf [[os "srv", os "app", os "main"]]).Within
      (tableOf [[os "srv", os "app", os "main"]] [projectEntry])
      (tableOf [[os "srv", os "app", os "main"]] [projectEntry, vendorEntry]) :=
  (ConsentHost.within_iff_not_uncovers (describes_tableOf (by decide))
    (describes_tableOf (by decide)) (by decide)).2 (by decide)

/-- Where it holds something there, dropping the mount hands that out, read-write. -/
theorem narrowing_uncovers :
    (grantedSet (tableOf [[os "srv", os "app", os "vendor", os "key"]] [projectEntry])).isSubsetOf
      (grantedSet (tableOf [[os "srv", os "app", os "vendor", os "key"]]
        [projectEntry, vendorEntry])) = true ∧
    ¬ (hostOf [[os "srv", os "app", os "vendor", os "key"]]).Within
      (tableOf [[os "srv", os "app", os "vendor", os "key"]] [projectEntry])
      (tableOf [[os "srv", os "app", os "vendor", os "key"]] [projectEntry, vendorEntry]) :=
  ⟨by decide, ConsentHost.not_within_of_uncovers (describes_tableOf (by decide))
    (describes_tableOf (by decide)) (by decide) (by decide)⟩

end

end Seahaven.Trust
