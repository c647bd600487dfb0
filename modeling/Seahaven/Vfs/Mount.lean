import Mathlib.Data.List.Infix
import Mathlib.Data.List.Pairwise
import Mathlib.Data.List.Sort
import Seahaven.Host.Tree
import Seahaven.Vfs.Path

/-!
# The mount table

A mount binds a virtual path to a host directory and an access mode. A table keeps its mounts by
descending depth, so that the first one a path lies in is the longest, and each mount records
whether another mount point lies strictly beneath its own.
-/

namespace Seahaven.Vfs

open Host

/-- What a mount permits. -/
inductive Access
  | readOnly
  | readWrite
  deriving DecidableEq

def Access.isWritable : Access → Bool
  | .readOnly => false
  | .readWrite => true

def findOverlap (canonical : List HostPath) : Option (HostPath × HostPath) :=
  canonical.zipIdx.findSome? fun (outer, i) =>
    canonical.zipIdx.findSome? fun (inner, j) =>
      if i ≠ j ∧ outer.isPrefixOf inner then some (inner, outer) else none

def Apart (c c' : HostPath) : Prop := ¬ c <+: c' ∧ ¬ c' <+: c

variable {canonical : List HostPath}

theorem findOverlap_eq_none (h : findOverlap canonical = none) :
    canonical.Pairwise Apart := by
  have hno : ∀ i j (hi : i < canonical.length) (hj : j < canonical.length), i ≠ j →
      ¬ canonical[i] <+: canonical[j] := by
    intro i j hi hj hij hpre
    have hi' := List.findSome?_eq_none_iff.1 h (canonical[i], i)
      (by simp [List.mem_zipIdx_iff_getElem?])
    have hj' := List.findSome?_eq_none_iff.1 hi' (canonical[j], j)
      (by simp [List.mem_zipIdx_iff_getElem?])
    simp [hij, hpre] at hj'
  exact List.pairwise_iff_getElem.2 fun i j hi hj hij =>
    ⟨hno i j hi hj (by omega), hno j i hj hi (by omega)⟩

theorem findOverlap_eq_none_iff : findOverlap canonical = none ↔ canonical.Pairwise Apart := by
  refine ⟨findOverlap_eq_none, fun h => ?_⟩
  refine List.findSome?_eq_none_iff.2 fun ⟨outer, i⟩ ho => List.findSome?_eq_none_iff.2 ?_
  rintro ⟨inner, j⟩ hi
  rw [List.mem_zipIdx_iff_getElem?] at ho hi
  dsimp only at ho hi
  obtain ⟨hil, rfl⟩ := List.getElem?_eq_some_iff.1 ho
  obtain ⟨hjl, rfl⟩ := List.getElem?_eq_some_iff.1 hi
  refine if_neg ?_
  rintro ⟨hij, hpre⟩
  rw [List.isPrefixOf_iff_prefix] at hpre
  rcases Nat.lt_or_gt_of_ne hij with hlt | hlt
  · exact (List.pairwise_iff_getElem.1 h i j hil hjl hlt).1 hpre
  · exact (List.pairwise_iff_getElem.1 h j i hjl hil hlt).2 hpre

theorem map_fst_zip_initial {α β : Type*} (l : List α) (l' : List β) :
    (l.zip l').map Prod.fst <+: l := by
  induction l generalizing l' with
  | nil => simp
  | cons a l ih => cases l' <;> simp [ih]

theorem map_snd_zip_initial {α β : Type*} (l : List α) (l' : List β) :
    (l.zip l').map Prod.snd <+: l' := by
  induction l' generalizing l with
  | nil => simp
  | cons b l' ih => cases l <;> simp [ih]

variable [Unicode]

/-- One binding of a virtual path to a host directory. -/
structure Mount where
  «at» : VirtualPath
  dir : CapDir
  /-- The host directory this mount was opened from, when there was one. -/
  hostPath : Option PathBuf
  canonicalHostPath : Option HostPath
  access : Access
  /-- Whether another mount point lies strictly beneath this one. -/
  shadowsNested : Bool
  deriving DecidableEq

/-- Why a mount table could not be built. -/
inductive MountError
  | path (e : PathError)
  | hostDir (path : PathBuf) (source : IoError)
  | duplicateMountPoint («at» : OsStr)
  | collidingMountPoints (first second : OsStr)
  | overlappingHostDirs (inner outer : HostPath)
  deriving DecidableEq

/-- The host as a table is built from it. -/
structure MountHost where
  /-- `Path::canonicalize`. -/
  canonicalize : PathBuf → Except IoError HostPath
  /-- `Dir::open_ambient_dir`. -/
  openAmbientDir : HostPath → Except IoError CapDir

/-- A mount to be built. -/
structure Entry where
  «at» : VirtualPath
  host : PathBuf
  access : Access

/-- Whether a mount point of `mounts` lies strictly beneath `path`. -/
def hasPointBelow (mounts : List Mount) (path : VirtualPath) : Bool :=
  mounts.any fun m => m.at ≠ path && m.at.startsWith path

/-- The set of mounts forming one virtual namespace. -/
structure MountTable where
  mounts : List Mount
  sorted : mounts.Pairwise fun m m' => m'.at.components.length ≤ m.at.components.length
  points : mounts.Pairwise fun m m' => m.at ≠ m'.at
  nesting : ∀ m ∈ mounts, m.shadowsNested = hasPointBelow mounts m.at

variable {host : MountHost} {entries : List (Entry × HostPath)} {mounts : List Mount}

namespace MountTable

theorem ext_mounts {t t' : MountTable} (h : t.mounts = t'.mounts) : t = t' := by
  cases t
  cases t'
  cases h
  rfl

/-- Finds the mount governing `path`, with the path's components relative to that mount's root. -/
def resolve (t : MountTable) (path : VirtualPath) : Option (Mount × List OsStr) :=
  t.mounts.findSome? fun m => (path.stripPrefix m.at).map fun rest => (m, rest)

/-- Whether some mount point lies strictly beneath `path`. -/
def hasMountBelow (t : MountTable) (path : VirtualPath) : Bool := hasPointBelow t.mounts path

/-- The order `from_mounts` sorts by: longest mount point first. -/
def Deeper (m m' : Mount) : Prop := m'.at.components.length ≤ m.at.components.length

instance : DecidableRel Deeper := fun _ _ => Nat.decLe _ _

instance : Std.Total Deeper := ⟨fun _ _ => Nat.le_total _ _⟩

instance : IsTrans Mount Deeper := ⟨fun _ _ _ h h' => Nat.le_trans h' h⟩

def recordNesting (mounts : List Mount) : List Mount :=
  mounts.map fun outer => { outer with shadowsNested := hasPointBelow mounts outer.at }

theorem hasPointBelow_recordNesting (all mounts : List Mount) (path : VirtualPath) :
    hasPointBelow
        (mounts.map fun outer => { outer with shadowsNested := hasPointBelow all outer.at }) path =
      hasPointBelow mounts path := by
  simp only [hasPointBelow, List.any_map]
  rfl

/-- Orders mounts and records nesting, the two invariants `resolve` and the walk depend on. -/
def fromMounts (mounts : List Mount) (h : mounts.Pairwise fun m m' => m.at ≠ m'.at) :
    MountTable where
  mounts := recordNesting (mounts.insertionSort Deeper)
  sorted := List.pairwise_map.2 (List.pairwise_insertionSort Deeper mounts)
  points := List.pairwise_map.2
    ((List.perm_insertionSort Deeper mounts).symm.pairwise h fun h => Ne.symm h)
  nesting m hm := by
    obtain ⟨outer, -, rfl⟩ := List.mem_map.1 hm
    exact (hasPointBelow_recordNesting _ _ _).symm

/-! ## Building a table -/

/-- The loop of `checkMountPoints` over the folded keys seen so far and the point each came from. -/
def checkLoop (seen : List (OsStr × OsStr)) : List VirtualPath → Except MountError Unit
  | [] => .ok ()
  | at' :: rest =>
    let key := OsStr.join (at'.components.map foldForCollision)
    match seen.lookup key with
    | some first =>
      if first = at'.asStr then .error (.duplicateMountPoint at'.asStr)
      else .error (.collidingMountPoints first at'.asStr)
    | none => checkLoop ((key, at'.asStr) :: seen) rest

def checkMountPoints (points : List VirtualPath) : Except MountError Unit := checkLoop [] points

/-- What `checkMountPoints` compares points by. -/
def collisionKey (p : VirtualPath) : OsStr := OsStr.join (p.components.map foldForCollision)

variable {points : List VirtualPath}

theorem checkLoop_eq_ok {seen : List (OsStr × OsStr)} :
    checkLoop seen points = .ok () ↔ (points.map collisionKey).Nodup ∧
      ∀ p ∈ points, seen.lookup (collisionKey p) = none := by
  induction points generalizing seen with
  | nil => simp [checkLoop]
  | cons at' rest ih =>
    have hkey : OsStr.join (at'.components.map foldForCollision) = collisionKey at' := rfl
    unfold checkLoop
    dsimp only
    rw [hkey, List.map_cons, List.nodup_cons, List.forall_mem_cons]
    cases hl : seen.lookup (collisionKey at') with
    | some first =>
      dsimp only
      split_ifs <;> simp
    | none =>
      dsimp only
      rw [ih]
      simp only [List.lookup_cons, List.mem_map, not_exists, not_and, true_and]
      constructor
      · rintro ⟨hnodup, hrest⟩
        refine ⟨⟨fun p hp he => ?_, hnodup⟩, fun p hp => ?_⟩
        · have := hrest p hp
          simp [he] at this
        · have := hrest p hp
          split at this
          · cases this
          · exact this
      · rintro ⟨⟨hfresh, hnodup⟩, hrest⟩
        refine ⟨hnodup, fun p hp => ?_⟩
        rw [beq_false_of_ne (hfresh p hp)]
        exact hrest p hp

theorem checkMountPoints_eq_ok :
    checkMountPoints points = .ok () ↔ (points.map collisionKey).Nodup := by
  rw [checkMountPoints, checkLoop_eq_ok]
  exact and_iff_left fun _ _ => rfl

theorem checkMountPoints_ok (h : checkMountPoints points = .ok ()) :
    points.Pairwise (· ≠ ·) := (checkMountPoints_eq_ok.1 h).of_map _

/-- The canonical host directories of the entries, or the first failure. -/
def canonicalHosts (host : MountHost) : List Entry → Except MountError (List HostPath)
  | [] => .ok []
  | e :: rest =>
    match host.canonicalize e.host with
    | .error source => .error (.hostDir e.host source)
    | .ok p =>
      match canonicalHosts host rest with
      | .error err => .error err
      | .ok ps => .ok (p :: ps)

/-- The mounts of the entries, or the first failure to open one. -/
def openMounts (host : MountHost) : List (Entry × HostPath) → Except MountError (List Mount)
  | [] => .ok []
  | (e, canonical) :: rest =>
    match host.openAmbientDir canonical with
    | .error source => .error (.hostDir ([OsStr.slash] :: canonical) source)
    | .ok dir =>
      match openMounts host rest with
      | .error err => .error err
      | .ok mounts => .ok (⟨e.at, dir, some e.host, some canonical, e.access, false⟩ :: mounts)

theorem openMounts_points (h : openMounts host entries = .ok mounts) :
    mounts.map Mount.at = entries.map fun e => e.1.at := by
  induction entries generalizing mounts with
  | nil =>
    obtain rfl : [] = mounts := by simpa [openMounts] using h
    rfl
  | cons e rest ih =>
    unfold openMounts at h
    split at h
    · cases h
    · split at h
      · cases h
      · rename_i ms hms
        obtain rfl := Except.ok.inj h
        simp [ih hms]

theorem points_of_openMounts {entries : List Entry}
    (hc : checkMountPoints (entries.map Entry.at) = .ok ())
    (hm : openMounts host (entries.zip canonical) = .ok mounts) :
    mounts.Pairwise fun m m' => m.at ≠ m'.at := by
  refine List.pairwise_map.1 (?_ : (mounts.map Mount.at).Pairwise (· ≠ ·))
  have hsub : (entries.zip canonical).map (fun e => e.1.at) <+: entries.map Entry.at := by
    have := (map_fst_zip_initial entries canonical).map Entry.at
    rwa [List.map_map] at this
  rw [openMounts_points hm]
  exact (checkMountPoints_ok hc).sublist hsub.sublist

end MountTable

/-- Accumulates and validates mounts. -/
structure MountTableBuilder where
  entries : List Entry

namespace MountTableBuilder

/-- Adds a mount, deferring validation to `build`. -/
def mount (b : MountTableBuilder) (at' : OsStr) (hostDir : PathBuf) (access : Access) :
    Except MountError MountTableBuilder :=
  match VirtualPath.new at' with
  | .error e => .error (.path e)
  | .ok at' => .ok ⟨b.entries ++ [⟨at', hostDir, access⟩]⟩

open MountTable in
/-- Validates the accumulated mounts and opens their host directories. -/
def build (b : MountTableBuilder) (host : MountHost) : Except MountError MountTable :=
  match hc : checkMountPoints (b.entries.map Entry.at) with
  | .error e => .error e
  | .ok () =>
    match canonicalHosts host b.entries with
    | .error e => .error e
    | .ok canonical =>
      match findOverlap canonical with
      | some (inner, outer) => .error (.overlappingHostDirs inner outer)
      | none =>
        match hm : openMounts host (b.entries.zip canonical) with
        | .error e => .error e
        | .ok mounts => .ok (fromMounts mounts (points_of_openMounts hc hm))

end MountTableBuilder

/-! ### What a build establishes -/

variable {m : Mount}

namespace MountTable

theorem canonicalHosts_zip {entries : List Entry}
    (h : canonicalHosts host entries = .ok canonical) {e : Entry} {c : HostPath}
    (hec : (e, c) ∈ entries.zip canonical) : host.canonicalize e.host = .ok c := by
  induction entries generalizing canonical with
  | nil => simp at hec
  | cons e' rest ih =>
    unfold canonicalHosts at h
    split at h
    · cases h
    · rename_i p hp
      split at h
      · cases h
      · rename_i ps hps
        obtain rfl := Except.ok.inj h
        rw [List.zip_cons_cons] at hec
        rcases List.mem_cons.1 hec with heq | hec
        · obtain ⟨rfl, rfl⟩ := Prod.mk.inj heq
          exact hp
        · exact ih hps hec

theorem openMounts_mem (h : openMounts host entries = .ok mounts)
    (hm : m ∈ mounts) : ∃ e c, (e, c) ∈ entries ∧ m.hostPath = some e.host ∧
      m.canonicalHostPath = some c := by
  induction entries generalizing mounts with
  | nil =>
    obtain rfl : [] = mounts := by simpa [openMounts] using h
    simp at hm
  | cons e rest ih =>
    obtain ⟨e, c⟩ := e
    unfold openMounts at h
    split at h
    · cases h
    · split at h
      · cases h
      · rename_i ms hms
        obtain rfl := Except.ok.inj h
        rcases List.mem_cons.1 hm with rfl | hm
        · exact ⟨e, c, by simp, rfl, rfl⟩
        · obtain ⟨e', c', hmem, h₁, h₂⟩ := ih hms hm
          exact ⟨e', c', List.mem_cons_of_mem _ hmem, h₁, h₂⟩

theorem openMounts_canonical (h : openMounts host entries = .ok mounts) :
    mounts.map Mount.canonicalHostPath = entries.map fun e => some e.2 := by
  induction entries generalizing mounts with
  | nil =>
    obtain rfl : [] = mounts := by simpa [openMounts] using h
    rfl
  | cons e rest ih =>
    unfold openMounts at h
    split at h
    · cases h
    · split at h
      · cases h
      · rename_i ms hms
        obtain rfl := Except.ok.inj h
        simp [ih hms]

/-- A table built from host directories: each mount knows its directory's canonical form, and no
two of them overlap. -/
structure Built (host : MountHost) (t : MountTable) : Prop where
  opened : ∀ m ∈ t.mounts, ∃ p c, m.hostPath = some p ∧ m.canonicalHostPath = some c ∧
    host.canonicalize p = .ok c
  apart : ∀ m ∈ t.mounts, ∀ m' ∈ t.mounts, ∀ c c', m.canonicalHostPath = some c →
    m'.canonicalHostPath = some c' → m.at ≠ m'.at → Apart c c'

theorem mem_fromMounts {h : mounts.Pairwise fun m m' => m.at ≠ m'.at}
    (hm : m ∈ (fromMounts mounts h).mounts) :
    ∃ m₀ ∈ mounts, m₀.at = m.at ∧ m₀.hostPath = m.hostPath ∧
      m₀.canonicalHostPath = m.canonicalHostPath := by
  obtain ⟨m₀, hm₀, rfl⟩ := List.mem_map.1 hm
  exact ⟨m₀, (List.mem_insertionSort _).1 hm₀, rfl, rfl, rfl⟩

theorem built_of_build {b : MountTableBuilder} {t : MountTable}
    (h : b.build host = .ok t) : Built host t := by
  unfold MountTableBuilder.build at h
  split at h
  · cases h
  split at h
  · cases h
  rename_i canonical hcanonical
  split at h
  · cases h
  rename_i hoverlap
  split at h
  · cases h
  rename_i mounts hmounts
  obtain rfl := Except.ok.inj h
  have hopened : ∀ m ∈ mounts, ∃ p c, m.hostPath = some p ∧ m.canonicalHostPath = some c ∧
      host.canonicalize p = .ok c := by
    intro m hm
    obtain ⟨e, c, hec, hp, hc⟩ := openMounts_mem hmounts hm
    exact ⟨e.host, c, hp, hc, canonicalHosts_zip hcanonical hec⟩
  have hapart : mounts.Pairwise fun m m' => ∀ c c', m.canonicalHostPath = some c →
      m'.canonicalHostPath = some c' → Apart c c' := by
    have hmap := openMounts_canonical hmounts
    have hpair : ((b.entries.zip canonical).map fun e => some e.2).Pairwise
        fun o o' => ∀ c c', o = some c → o' = some c' → Apart c c' := by
      have hapart := (findOverlap_eq_none hoverlap).sublist
        (map_snd_zip_initial b.entries canonical).sublist
      rw [List.pairwise_map] at hapart ⊢
      refine hapart.imp fun h c c' hc hc' => ?_
      rwa [← Option.some.inj hc, ← Option.some.inj hc']
    rw [← hmap] at hpair
    exact List.pairwise_map.1 hpair
  refine ⟨fun m hm => ?_, fun m hm m' hm' c c' hc hc' hne => ?_⟩
  · obtain ⟨m₀, hm₀, -, hp, hc⟩ := mem_fromMounts hm
    rw [← hp, ← hc]
    exact hopened m₀ hm₀
  · obtain ⟨m₀, hm₀, hat, -, hcan⟩ := mem_fromMounts hm
    obtain ⟨m₀', hm₀', hat', -, hcan'⟩ := mem_fromMounts hm'
    have : Std.Symm fun m m' : Mount => ∀ c c', m.canonicalHostPath = some c →
        m'.canonicalHostPath = some c' → Apart c c' :=
      ⟨fun _ _ h c c' hc hc' => (h c' c hc' hc).symm⟩
    refine hapart.forall hm₀ hm₀' (fun he => hne ?_) c c' (hcan.trans hc) (hcan'.trans hc')
    rw [← hat, ← hat', he]

end MountTable

/-! ## The governing mount -/

namespace MountTable

variable {t : MountTable}

theorem eq_of_at_eq {m' : Mount} (hm : m ∈ t.mounts) (hm' : m' ∈ t.mounts)
    (h : m.at = m'.at) : m = m' := by
  have : Std.Symm fun m m' : Mount => m.at ≠ m'.at := ⟨fun _ _ h => Ne.symm h⟩
  by_contra hne
  exact t.points.forall hm hm' hne h

variable {p : VirtualPath}

/-- **Longest match.** The mount that governs a path is the one whose point is the longest prefix
of it among the table's points. -/
theorem resolve_eq_some {rest : List OsStr} :
    t.resolve p = some (m, rest) ↔ m ∈ t.mounts ∧ p.components = m.at.components ++ rest ∧
      ∀ m' ∈ t.mounts, m'.at.components <+: p.components →
        m'.at.components <+: m.at.components := by
  have hfirst : ∀ {m rest}, t.resolve p = some (m, rest) → m ∈ t.mounts ∧
      p.components = m.at.components ++ rest ∧ ∀ m' ∈ t.mounts,
        m'.at.components <+: p.components → m'.at.components <+: m.at.components := by
    intro m rest h
    obtain ⟨l₁, a, l₂, hl, ha, hnone⟩ := List.findSome?_eq_some_iff.1 h
    obtain ⟨r, hr, he⟩ := Option.map_eq_some_iff.1 ha
    obtain ⟨rfl, rfl⟩ := Prod.mk.inj he
    have hp := VirtualPath.stripPrefix_eq_some.1 hr
    refine ⟨by simp [hl], hp, fun m' hm' hpre => ?_⟩
    have hsorted := hl ▸ t.sorted
    rw [hl, List.mem_append, List.mem_cons] at hm'
    rcases hm' with hm' | rfl | hm'
    · -- an earlier mount does not match
      have := hnone m' hm'
      rw [Option.map_eq_none_iff, VirtualPath.stripPrefix_eq_none] at this
      exact absurd hpre this
    · exact List.prefix_refl _
    · -- a later mount is no longer
      have hlen := (List.pairwise_cons.1 (List.pairwise_append.1 hsorted).2.1).1 m' hm'
      exact List.prefix_of_prefix_length_le hpre (hp ▸ List.prefix_append _ _) hlen
  refine ⟨hfirst, fun ⟨hm, hp, hlong⟩ => ?_⟩
  cases h : t.resolve p with
  | none =>
    rw [resolve, List.findSome?_eq_none_iff] at h
    have := h m hm
    rw [Option.map_eq_none_iff, VirtualPath.stripPrefix_eq_none] at this
    exact absurd (hp ▸ List.prefix_append _ _) this
  | some x =>
    obtain ⟨m₀, rest₀⟩ := x
    obtain ⟨hm₀, hp₀, hlong₀⟩ := hfirst h
    have h₁ := hlong m₀ hm₀ (hp₀ ▸ List.prefix_append _ _)
    have h₂ := hlong₀ m hm (hp ▸ List.prefix_append _ _)
    have hat : m₀.at = m.at :=
      VirtualPath.ext (h₁.eq_of_length (Nat.le_antisymm h₁.length_le h₂.length_le))
    obtain rfl := eq_of_at_eq hm₀ hm hat
    rw [hp] at hp₀
    rw [List.append_cancel_left hp₀]

theorem resolve_eq_none : t.resolve p = none ↔
    ∀ m ∈ t.mounts, ¬ m.at.components <+: p.components := by
  simp only [resolve, List.findSome?_eq_none_iff, Option.map_eq_none_iff,
    VirtualPath.stripPrefix_eq_none]

theorem resolve_at (hm : m ∈ t.mounts) : t.resolve m.at = some (m, []) :=
  resolve_eq_some.2 ⟨hm, by simp, fun _ _ h => h⟩

theorem hasPointBelow_iff :
    hasPointBelow mounts p = true ↔ ∃ m ∈ mounts, m.at ≠ p ∧ p.components <+: m.at.components := by
  simp [hasPointBelow, VirtualPath.startsWith_iff]

theorem shadowsNested_iff (hm : m ∈ t.mounts) : m.shadowsNested = true ↔
    ∃ m' ∈ t.mounts, m'.at ≠ m.at ∧ m.at.components <+: m'.at.components := by
  rw [t.nesting m hm, hasPointBelow_iff]

end MountTable

end Seahaven.Vfs
