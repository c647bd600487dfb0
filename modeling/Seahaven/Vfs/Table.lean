import Mathlib.Data.List.Perm.Basic
import Seahaven.Vfs.Session

/-!
# What a table resolves to

1. `mounts_perm`, `resolve_congr`: the order of the mounts does not matter.
2. `build_eq_ok`, `fromChildHandles_eq_ok`: what each route makes of its entries, and when.
3. `resolve_of_accepted`: the longest mount point answers, whatever the order of the entries.
-/

namespace Seahaven.Vfs

open Host OsStr

namespace MountTable

section

variable [Unicode]

/-! ## The order of the mounts -/

variable {mounts : List Mount}

theorem hasPointBelow_perm {mounts' : List Mount} (h : mounts.Perm mounts')
    (p : VirtualPath) : hasPointBelow mounts p = hasPointBelow mounts' p := by
  unfold hasPointBelow
  exact h.any_eq

theorem mounts_perm {mounts' : List Mount} (hperm : mounts.Perm mounts')
    (h : mounts.Pairwise fun m m' => m.at ≠ m'.at)
    (h' : mounts'.Pairwise fun m m' => m.at ≠ m'.at) :
    (fromMounts mounts h).mounts.Perm (fromMounts mounts' h').mounts := by
  have hsorted : (mounts.insertionSort Deeper).Perm (mounts'.insertionSort Deeper) :=
    ((List.perm_insertionSort _ _).trans hperm).trans (List.perm_insertionSort _ _).symm
  change (recordNesting _).Perm (recordNesting _)
  unfold recordNesting
  have hflag : (fun outer : Mount => { outer with
        shadowsNested := hasPointBelow (mounts.insertionSort Deeper) outer.at }) =
      fun outer => { outer with
        shadowsNested := hasPointBelow (mounts'.insertionSort Deeper) outer.at } := by
    funext outer
    rw [hasPointBelow_perm hsorted]
  rw [hflag]
  exact hsorted.map _

variable {t : MountTable}

theorem resolve_congr {t' : MountTable} (h : t.mounts.Perm t'.mounts) (p : VirtualPath) :
    t.resolve p = t'.resolve p := by
  cases hr : t.resolve p with
  | none =>
    rw [resolve_eq_none] at hr
    exact (resolve_eq_none.2 fun m hm => hr m (h.mem_iff.2 hm)).symm
  | some r =>
    obtain ⟨m, rest⟩ := r
    obtain ⟨hm, hp, hlong⟩ := resolve_eq_some.1 hr
    exact (resolve_eq_some.2 ⟨h.mem_iff.1 hm, hp, fun m' hm' => hlong m' (h.mem_iff.2 hm')⟩).symm

variable {m : Mount}

theorem resolve_longest {p : VirtualPath} {rest : List OsStr} :
    t.resolve p = some (m, rest) ↔ m ∈ t.mounts ∧ p.components = m.at.components ++ rest ∧
      ∀ m' ∈ t.mounts, m'.at.components <+: p.components →
        m'.at.components.length ≤ m.at.components.length := by
  rw [resolve_eq_some]
  refine and_congr_right fun _ => and_congr_right fun hp => ?_
  have hpre : m.at.components <+: p.components := hp ▸ List.prefix_append _ _
  exact forall_congr' fun m' => forall_congr' fun _ => forall_congr' fun hpre' =>
    ⟨fun h => h.length_le, List.prefix_of_prefix_length_le hpre' hpre⟩

theorem resolve_beneath (hm : m ∈ t.mounts)
    (hs : m.shadowsNested = false) {p : VirtualPath} {rest : List OsStr}
    (hp : p.components = m.at.components ++ rest) : t.resolve p = some (m, rest) := by
  refine resolve_eq_some.2 ⟨hm, hp, fun m' hm' hpre => ?_⟩
  rcases List.prefix_or_prefix_of_prefix hpre (hp ▸ List.prefix_append _ _) with h | h
  · exact h
  · by_cases hat : m'.at = m.at
    · rw [hat]
    · have hnested := (shadowsNested_iff hm).2 ⟨m', hm', hat, h⟩
      rw [hs] at hnested
      cases hnested

/-! ## A table of host directories -/

def Opens (host : MountHost) (e : Entry) (m : Mount) : Prop :=
  ∃ c d, host.canonicalize e.host = .ok c ∧ host.openAmbientDir c = .ok d ∧
    m = ⟨e.at, d, some e.host, some c, e.access, false⟩

variable {host : MountHost}

theorem canonicalHosts_eq_ok {entries : List Entry} {cs : List HostPath} :
    canonicalHosts host entries = .ok cs ↔
      List.Forall₂ (fun e c => host.canonicalize e.host = .ok c) entries cs := by
  induction entries generalizing cs with
  | nil => simp [canonicalHosts, eq_comm]
  | cons e rest ih =>
    unfold canonicalHosts
    cases hc : host.canonicalize e.host with
    | error source =>
      simp only [reduceCtorEq, false_iff]
      rintro h
      cases h with
      | cons h _ =>
        rw [hc] at h
        cases h
    | ok c =>
      dsimp only
      cases hrest : canonicalHosts host rest with
      | error err =>
        simp only [reduceCtorEq, false_iff]
        intro h
        cases h with
        | cons _ h =>
          rw [ih.2 h] at hrest
          cases hrest
      | ok ps =>
        simp only [Except.ok.injEq]
        constructor
        · rintro rfl
          exact .cons hc (ih.1 hrest)
        · intro h
          cases h with
          | @cons _ c' _ ps' h₁ h₂ =>
            rw [hc] at h₁
            rw [ih.2 h₂] at hrest
            rw [Except.ok.inj h₁, Except.ok.inj hrest]

theorem openMounts_eq_ok {entries : List (Entry × HostPath)} :
    openMounts host entries = .ok mounts ↔ List.Forall₂ (fun e m => ∃ d,
      host.openAmbientDir e.2 = .ok d ∧
        m = ⟨e.1.at, d, some e.1.host, some e.2, e.1.access, false⟩) entries mounts := by
  induction entries generalizing mounts with
  | nil => simp [openMounts, eq_comm]
  | cons e rest ih =>
    obtain ⟨e, c⟩ := e
    unfold openMounts
    cases hd : host.openAmbientDir c with
    | error source =>
      simp only [reduceCtorEq, false_iff]
      intro h
      cases h with
      | cons h _ =>
        obtain ⟨d, h, -⟩ := h
        rw [hd] at h
        cases h
    | ok d =>
      dsimp only
      cases hrest : openMounts host rest with
      | error err =>
        simp only [reduceCtorEq, false_iff]
        intro h
        cases h with
        | cons _ h =>
          rw [ih.2 h] at hrest
          cases hrest
      | ok ms =>
        simp only [Except.ok.injEq]
        constructor
        · rintro rfl
          exact .cons ⟨d, hd, rfl⟩ (ih.1 hrest)
        · intro h
          cases h with
          | @cons _ m _ ms' h₁ h₂ =>
            obtain ⟨d', h₁, rfl⟩ := h₁
            rw [hd] at h₁
            rw [ih.2 h₂] at hrest
            rw [Except.ok.inj h₁, Except.ok.inj hrest]

def HostsApart (m m' : Mount) : Prop :=
  ∀ c ∈ m.canonicalHostPath, ∀ c' ∈ m'.canonicalHostPath, Apart c c'

theorem HostsApart.symm {m' : Mount} (h : HostsApart m m') : HostsApart m' m :=
  fun c hc c' hc' => (h c' hc' c hc).symm

theorem opens_iff {entries : List Entry} :
    List.Forall₂ (Opens host) entries mounts ↔ ∃ cs, canonicalHosts host entries = .ok cs ∧
      openMounts host (entries.zip cs) = .ok mounts ∧
      mounts.map Mount.canonicalHostPath = cs.map some := by
  simp only [canonicalHosts_eq_ok, openMounts_eq_ok]
  constructor
  · intro h
    induction h with
    | nil => exact ⟨[], .nil, .nil, rfl⟩
    | cons h _ ih =>
      obtain ⟨c, d, hc, hd, rfl⟩ := h
      obtain ⟨cs, hcs, hms, hmap⟩ := ih
      exact ⟨c :: cs, .cons hc hcs, .cons ⟨d, hd, rfl⟩ hms, by simp [hmap]⟩
  · rintro ⟨cs, hcs, hms, -⟩
    induction hcs generalizing mounts with
    | nil =>
      cases hms
      exact .nil
    | cons hc _ ih =>
      cases hms with
      | cons h hms =>
        obtain ⟨d, hd, rfl⟩ := h
        exact .cons ⟨_, d, hc, hd, rfl⟩ (ih hms)

theorem build_eq_ok {b : MountTableBuilder} :
    b.build host = .ok t ↔ (b.entries.map fun e => collisionKey e.at).Nodup ∧
      ∃ mounts, List.Forall₂ (Opens host) b.entries mounts ∧ mounts.Pairwise HostsApart ∧
        ∃ h, t = fromMounts mounts h := by
  have hkeys : checkMountPoints (b.entries.map Entry.at) = .ok () ↔
      (b.entries.map fun e => collisionKey e.at).Nodup := by
    rw [checkMountPoints_eq_ok, List.map_map]
    rfl
  have hapart : ∀ {cs : List HostPath} {mounts : List Mount},
      mounts.map Mount.canonicalHostPath = cs.map some →
        (mounts.Pairwise HostsApart ↔ cs.Pairwise Apart) := by
    intro cs mounts hmap
    have h : (mounts.map Mount.canonicalHostPath).Pairwise
        (fun o o' => ∀ c ∈ o, ∀ c' ∈ o', Apart c c') ↔ cs.Pairwise Apart := by
      rw [hmap, List.pairwise_map]
      simp
    rw [← h, List.pairwise_map]
    rfl
  rw [← hkeys]
  unfold MountTableBuilder.build
  constructor
  · intro h
    split at h
    · cases h
    rename_i hc
    split at h
    · cases h
    rename_i cs hcs
    split at h
    · cases h
    rename_i hover
    split at h
    · cases h
    rename_i mounts hms
    have hmap : mounts.map Mount.canonicalHostPath = cs.map some := by
      conv_rhs => rw [← List.map_snd_zip (canonicalHosts_eq_ok.1 hcs).length_eq.ge, List.map_map]
      exact openMounts_canonical hms
    exact ⟨hc, mounts, opens_iff.2 ⟨cs, hcs, hms, hmap⟩,
      (hapart hmap).2 (findOverlap_eq_none hover), _, (Except.ok.inj h).symm⟩
  · rintro ⟨hc, mounts, hms, hpair, h, rfl⟩
    obtain ⟨cs, hcs, hopen, hmap⟩ := opens_iff.1 hms
    have hover := findOverlap_eq_none_iff.2 ((hapart hmap).1 hpair)
    split
    · rename_i hc'
      rw [hc] at hc'
      cases hc'
    split
    · rename_i hcs'
      rw [hcs] at hcs'
      cases hcs'
    rename_i cs' hcs'
    rw [hcs] at hcs'
    obtain rfl := Except.ok.inj hcs'
    split
    · rename_i hover'
      rw [hover] at hover'
      cases hover'
    split
    · rename_i hopen'
      rw [hopen] at hopen'
      cases hopen'
    rename_i mounts' hopen'
    rw [hopen] at hopen'
    obtain rfl := Except.ok.inj hopen'
    rfl

/-! ## A table of handles -/

def Receives (e : ChildEntry) (m : Mount) : Prop :=
  ∃ p, VirtualPath.new e.1 = .ok p ∧ m = ⟨p, e.2.2, none, none, e.2.1, false⟩

variable {entries : List ChildEntry}

theorem parsePoints_eq_ok
    {parsed : List (VirtualPath × Access × CapDir)} : parsePoints entries = .ok parsed ↔
      List.Forall₂ (fun e p => VirtualPath.new e.1 = .ok p.1 ∧ e.2 = p.2) entries parsed := by
  induction entries generalizing parsed with
  | nil => simp [parsePoints, eq_comm]
  | cons e rest ih =>
    obtain ⟨at', access, handle⟩ := e
    unfold parsePoints
    cases hp : VirtualPath.new at' with
    | error err =>
      simp only [reduceCtorEq, false_iff]
      intro h
      cases h with
      | cons h _ =>
        rw [hp] at h
        cases h.1
    | ok p =>
      dsimp only
      cases hrest : parsePoints rest with
      | error err =>
        simp only [reduceCtorEq, false_iff]
        intro h
        cases h with
        | cons _ h =>
          rw [ih.2 h] at hrest
          cases hrest
      | ok ps =>
        simp only [Except.ok.injEq]
        constructor
        · rintro rfl
          exact .cons ⟨hp, rfl⟩ (ih.1 hrest)
        · intro h
          cases h with
          | @cons _ p' _ ps' h₁ h₂ =>
            obtain ⟨p', access', handle'⟩ := p'
            obtain ⟨h₁, he⟩ := h₁
            rw [hp] at h₁
            rw [ih.2 h₂] at hrest
            obtain ⟨rfl, rfl⟩ := Prod.mk.inj he
            rw [Except.ok.inj h₁, Except.ok.inj hrest]

theorem fromChildHandles_eq_ok :
    fromChildHandles entries = .ok t ↔ ∃ mounts, List.Forall₂ Receives entries mounts ∧
      (mounts.map fun m => collisionKey m.at).Nodup ∧ ∃ h, t = fromMounts mounts h := by
  have hkeys : ∀ parsed : List (VirtualPath × Access × CapDir),
      checkMountPoints (parsed.map Prod.fst) = .ok () ↔
        ((parsed.map childMount).map fun m => collisionKey m.at).Nodup := by
    intro parsed
    rw [checkMountPoints_eq_ok, List.map_map, List.map_map]
    rfl
  have hreceives : ∀ mounts, List.Forall₂ Receives entries mounts ↔
      ∃ parsed, parsePoints entries = .ok parsed ∧ mounts = parsed.map childMount := by
    intro mounts
    simp only [parsePoints_eq_ok]
    constructor
    · intro h
      induction h with
      | nil => exact ⟨[], .nil, rfl⟩
      | @cons e _ _ _ h _ ih =>
        obtain ⟨p, hp, rfl⟩ := h
        obtain ⟨parsed, hparsed, rfl⟩ := ih
        exact ⟨(p, e.2) :: parsed, .cons ⟨hp, rfl⟩ hparsed, rfl⟩
    · rintro ⟨parsed, hparsed, rfl⟩
      refine List.forall₂_map_right_iff.2 (hparsed.imp fun e p h => ⟨p.1, h.1, ?_⟩)
      rw [h.2]
      rfl
  unfold fromChildHandles
  constructor
  · intro h
    split at h
    · cases h
    rename_i parsed hparsed
    split at h
    · cases h
    rename_i hc
    exact ⟨_, (hreceives _).2 ⟨parsed, hparsed, rfl⟩, (hkeys parsed).1 hc, _,
      (Except.ok.inj h).symm⟩
  · rintro ⟨mounts, hms, hnodup, h, rfl⟩
    obtain ⟨parsed, hparsed, rfl⟩ := (hreceives _).1 hms
    split
    · rename_i hparsed'
      rw [hparsed] at hparsed'
      cases hparsed'
    rename_i parsed' hparsed'
    rw [hparsed] at hparsed'
    obtain rfl := Except.ok.inj hparsed'
    split
    · rename_i hc'
      rw [(hkeys parsed).2 hnodup] at hc'
      cases hc'
    rfl

/-! ## Every order of the entries -/

/-- A table answers for the mount points `points`. -/
structure Governs (t : MountTable) (points : List VirtualPath) : Prop where
  mounted : (t.mounts.map Mount.at).Perm points
  longest : ∀ p m rest, t.resolve p = some (m, rest) ↔ m ∈ t.mounts ∧
    p.components = m.at.components ++ rest ∧ ∀ m' ∈ t.mounts,
      m'.at.components <+: p.components → m'.at.components.length ≤ m.at.components.length
  none : ∀ p, t.resolve p = none ↔ ∀ q ∈ points, ¬ q.components <+: p.components
  beneath : ∀ m ∈ t.mounts, m.shadowsNested = false → ∀ p rest,
    p.components = m.at.components ++ rest → t.resolve p = some (m, rest)

theorem points_fromMounts (h : mounts.Pairwise fun m m' => m.at ≠ m'.at) :
    ((fromMounts mounts h).mounts.map Mount.at).Perm (mounts.map Mount.at) := by
  have hperm := (List.perm_insertionSort Deeper mounts).map Mount.at
  simp only [fromMounts, recordNesting, List.map_map]
  exact hperm

theorem governs_fromMounts {points : List VirtualPath}
    (h : mounts.Pairwise fun m m' => m.at ≠ m'.at) (hp : mounts.map Mount.at = points) :
    Governs (fromMounts mounts h) points := by
  have hperm := hp ▸ points_fromMounts h
  refine ⟨hperm, fun _ _ _ => resolve_longest, fun p => ?_,
    fun m hm hs p rest => resolve_beneath hm hs⟩
  rw [resolve_eq_none]
  constructor
  · intro hno q hq
    obtain ⟨m, hm, rfl⟩ := List.mem_map.1 (hperm.mem_iff.2 hq)
    exact hno m hm
  · intro hno m hm
    exact hno m.at (hperm.mem_iff.1 (List.mem_map_of_mem hm))

theorem points_of_opens {entries : List Entry}
    (h : List.Forall₂ (Opens host) entries mounts) :
    mounts.map Mount.at = entries.map Entry.at := by
  induction h with
  | nil => rfl
  | cons h _ ih =>
    obtain ⟨c, d, -, -, rfl⟩ := h
    rw [List.map_cons, List.map_cons, ih]

theorem build_governs {b : MountTableBuilder}
    (h : b.build host = .ok t) : Governs t (b.entries.map Entry.at) := by
  obtain ⟨-, mounts, hms, -, hp, rfl⟩ := build_eq_ok.1 h
  exact governs_fromMounts hp (points_of_opens hms)

theorem build_perm {b b' : MountTableBuilder} {host : MountHost} {t : MountTable}
    (hperm : b'.entries.Perm b.entries) (h : b.build host = .ok t) :
    ∃ t', b'.build host = .ok t' ∧ t'.mounts.Perm t.mounts := by
  obtain ⟨hkeys, mounts, hms, hapart, hp, rfl⟩ := build_eq_ok.1 h
  obtain ⟨mounts', hms', hperm'⟩ := List.perm_comp_forall₂ hperm hms
  have hp' : mounts'.Pairwise fun m m' => m.at ≠ m'.at :=
    hperm'.symm.pairwise hp fun h => Ne.symm h
  exact ⟨fromMounts mounts' hp', build_eq_ok.2 ⟨(hperm.map _).nodup_iff.2 hkeys, mounts', hms',
    hperm'.symm.pairwise hapart HostsApart.symm, hp', rfl⟩, mounts_perm hperm' hp' hp⟩

theorem fromChildHandles_governs (h : fromChildHandles entries = .ok t) : ∃ points,
      List.Forall₂ (fun e p => VirtualPath.new e.1 = .ok p) entries points ∧
        Governs t points := by
  obtain ⟨mounts, hms, -, hp, rfl⟩ := fromChildHandles_eq_ok.1 h
  refine ⟨mounts.map Mount.at, List.forall₂_map_right_iff.2 (hms.imp ?_),
    governs_fromMounts hp rfl⟩
  rintro e m ⟨p, hp, rfl⟩
  exact hp

theorem fromChildHandles_perm {entries' : List ChildEntry}
    (hperm : entries'.Perm entries) (h : fromChildHandles entries = .ok t) :
    ∃ t', fromChildHandles entries' = .ok t' ∧ t'.mounts.Perm t.mounts := by
  obtain ⟨mounts, hms, hkeys, hp, rfl⟩ := fromChildHandles_eq_ok.1 h
  obtain ⟨mounts', hms', hperm'⟩ := List.perm_comp_forall₂ hperm hms
  have hp' : mounts'.Pairwise fun m m' => m.at ≠ m'.at :=
    hperm'.symm.pairwise hp fun h => Ne.symm h
  exact ⟨fromMounts mounts' hp', fromChildHandles_eq_ok.2 ⟨mounts', hms',
    (hperm'.map _).nodup_iff.2 hkeys, hp', rfl⟩, mounts_perm hperm' hp' hp⟩

/-- **A table answers with the longest mount point**, whichever way it was built and in whatever
order its entries came. -/
theorem resolve_of_accepted :
    (∀ (b : MountTableBuilder) (host : MountHost) (t : MountTable), b.build host = .ok t →
      Governs t (b.entries.map Entry.at) ∧ ∀ b' : MountTableBuilder, b'.entries.Perm b.entries →
        ∃ t', b'.build host = .ok t' ∧ ∀ p, t'.resolve p = t.resolve p) ∧
    ∀ (entries : List ChildEntry) (t : MountTable), fromChildHandles entries = .ok t →
      (∃ points, List.Forall₂ (fun e p => VirtualPath.new e.1 = .ok p) entries points ∧
        Governs t points) ∧ ∀ entries' : List ChildEntry, entries'.Perm entries →
          ∃ t', fromChildHandles entries' = .ok t' ∧ ∀ p, t'.resolve p = t.resolve p := by
  refine ⟨fun b host t h => ⟨build_governs h, fun b' hperm => ?_⟩, fun entries t h =>
    ⟨fromChildHandles_governs h, fun entries' hperm => ?_⟩⟩
  · obtain ⟨t', ht', hmounts⟩ := build_perm hperm h
    exact ⟨t', ht', resolve_congr hmounts⟩
  · obtain ⟨t', ht', hmounts⟩ := fromChildHandles_perm hperm h
    exact ⟨t', ht', resolve_congr hmounts⟩

end

attribute [local instance] composed

def directHost : MountHost := ⟨.ok, fun c => .ok ⟨0, c.length⟩⟩

def nestedEntries : List Entry :=
  [⟨⟨[os "work"], work_valid⟩, [os "srv"], .readOnly⟩,
    ⟨⟨[os "work", os "target"], by decide⟩, [os "tmp", os "out"], .readWrite⟩]

theorem nested_resolves : ∃ t t', MountTableBuilder.build ⟨nestedEntries⟩ directHost = .ok t ∧
    MountTableBuilder.build ⟨nestedEntries.reverse⟩ directHost = .ok t' ∧
    Governs t (nestedEntries.map Entry.at) ∧ ∀ p, t'.resolve p = t.resolve p := by
  have hbuilt : ∃ t, MountTableBuilder.build ⟨nestedEntries⟩ directHost = .ok t :=
    ⟨_, build_eq_ok.2 ⟨by decide, _, .cons ⟨_, _, rfl, rfl, rfl⟩ (.cons ⟨_, _, rfl, rfl, rfl⟩ .nil),
      by simp [HostsApart, Apart]; decide, by simp, rfl⟩⟩
  obtain ⟨t, ht⟩ := hbuilt
  obtain ⟨hgoverns, hperm⟩ := resolve_of_accepted.1 _ _ _ ht
  obtain ⟨t', ht', hsame⟩ := hperm ⟨nestedEntries.reverse⟩ (List.reverse_perm _)
  exact ⟨t, t', ht, ht', hgoverns, hsame⟩

end MountTable

end Seahaven.Vfs
