import Seahaven.Lib.Climb
import Seahaven.Lossy
import Seahaven.Vfs.Inside

/-!
# What a link is made to store

A link stores the way from the directory holding it to its target. `relative_from` spells that way
by counting the components the two share, and `stored_target_stays_in_mount` follows it with a
running depth.

1. `walk_relativeFromPath`: the way, followed from the directory holding the link, arrives at the
   target without climbing above the mount's directory.
2. `stays_iff_allowed`: the running depth answers whether a walk never climbs above it.
-/

namespace Seahaven.Vfs

open Host OsStr Climb

/-! ## Steps -/

def stepOf (c : OsStr) : Step OsStr :=
  if c = [] ∨ c = dot then .stay else if c = dotdot then .up else .down c

/-- A component of a path below a mount's directory. Such paths come of virtual paths, which are
text. -/
structure Ordinary (c : OsStr) : Prop where
  isPlain : IsPlain c
  no_slash : slash ∉ c
  isUtf8 : c.isUtf8 = true

theorem stepOf_plain {c : OsStr} (hc : IsPlain c) : stepOf c = .down c := by
  rw [stepOf, if_neg (by simp [hc.1, hc.2.1]), if_neg hc.2.2]

theorem stepOf_dotdot : stepOf dotdot = .up := rfl

theorem staysFrom_iff_allowed {depth : Nat} {s : List OsStr} :
    staysFrom depth s = true ↔ Allowed depth (s.map stepOf) := by
  induction s generalizing depth with
  | nil => exact iff_of_true rfl allowed_nil
  | cons c s ih =>
    rw [List.map_cons]
    generalize hsteps : s.map stepOf = steps at ih ⊢
    unfold staysFrom stepOf
    split_ifs
    · rw [allowed_stay, ih]
    · cases depth with
      | zero => simp [allowed_up]
      | succ depth => simp [allowed_up, ih]
    · rw [allowed_down, ih]

variable {link : List OsStr}

/-- **The running depth.** A stored target stays exactly when it is relative and the walk it stands
for is allowed from the directory holding the link. -/
theorem stays_iff_allowed {stored : OsStr} :
    storedTargetStaysInMount link stored = true ↔
      stored.isAbsolute = false ∧ Allowed link.dropLast.length (stored.split.map stepOf) := by
  rw [storedTargetStaysInMount, Bool.and_eq_true, staysFrom_iff_allowed, Bool.not_eq_true']

theorem allowed_split {depth : Nat} {s : List OsStr} : Allowed depth (s.map stepOf) ↔
    ∀ start, start <+: s →
      start.count dotdot ≤ depth + start.countP fun c => IsPlain c := by
  have hup : ∀ start : List OsStr, (start.map stepOf).countP Step.isUp = start.count dotdot := by
    intro start
    rw [List.countP_map, List.count]
    refine List.countP_congr fun c _ => ?_
    show (stepOf c).isUp = true ↔ (c == dotdot) = true
    unfold stepOf
    split_ifs with hstay hup
    · rcases hstay with rfl | rfl <;> decide
    · simp [hup, Step.isUp]
    · simp [hup, Step.isUp]
  have hdown : ∀ start : List OsStr,
      (start.map stepOf).countP Step.isDown = start.countP fun c => IsPlain c := by
    intro start
    rw [List.countP_map]
    refine List.countP_congr fun c _ => ?_
    show (stepOf c).isDown = true ↔ decide (IsPlain c) = true
    unfold stepOf
    split_ifs with hstay hup
    · rcases hstay with rfl | rfl <;> decide
    · rw [hup]
      decide
    · simpa [Step.isDown, IsPlain, hup] using hstay
  constructor
  · intro h start hstart
    have := h (start.map stepOf) (hstart.map _)
    rwa [hup, hdown] at this
  · intro h t ht
    obtain ⟨start, hstart, rfl⟩ := List.prefix_map_iff.1 ht
    rw [hup, hdown]
    exact h start hstart

/-! ## The way to a target -/

/-- `relative_from` on any paths of the host: what is no text in the target is replaced. -/
def relativeFromPath (link target : List OsStr) : OsStr :=
  let linkDir := link.dropLast
  let shared := sharedLength linkDir target
  let parts := List.replicate (linkDir.length - shared) dotdot ++
    (target.drop shared).map toStringLossy
  if parts = [] then dot else join parts

variable {target : List OsStr}

theorem relativeFromPath_eq (ht : ∀ c ∈ target, c.isUtf8 = true) :
    relativeFromPath link target = relativeFrom link target := by
  have hmap : ∀ n, (target.drop n).map toStringLossy = target.drop n := fun n => by
    conv_rhs => rw [← List.map_id (target.drop n)]
    exact List.map_congr_left fun c hc => fromUtf8Lossy_bytes (ht c (List.drop_subset _ _ hc))
  unfold relativeFromPath relativeFrom
  simp only [hmap]

theorem take_sharedLength (as bs : List OsStr) :
    as.take (sharedLength as bs) = bs.take (sharedLength as bs) := by
  fun_induction sharedLength as bs with
  | case1 a as bs ih => simpa using ih
  | case2 => rfl
  | case3 => rfl

theorem walk_parts (dir target : List OsStr) :
    walk dir (List.replicate (dir.length - sharedLength dir target) .up ++
      (target.drop (sharedLength dir target)).map .down) = some target := by
  set n := sharedLength dir target
  have hup : walk dir (List.replicate (dir.length - n) .up) = some (dir.take n) := by
    have h := walk_up (dir.take n) (dir.drop n)
    rwa [List.take_append_drop, List.length_drop] at h
  rw [walk_append, hup]
  show walk (dir.take n) ((target.drop n).map .down) = some target
  rw [walk_down, take_sharedLength, List.take_append_drop]

/-- **The way arrives.** Followed from the directory holding the link, it leads to the target. -/
theorem walk_relativeFrom (ht : ∀ c ∈ target, IsPlain c ∧ slash ∉ c) :
    walk link.dropLast ((relativeFrom link target).split.map stepOf) = some target := by
  have hwalk := walk_parts link.dropLast target
  have hsteps : ∀ n m, (List.replicate n dotdot ++ target.drop m).map stepOf =
      List.replicate n .up ++ (target.drop m).map .down := fun n m => by
    rw [List.map_append, List.map_replicate, stepOf_dotdot]
    congr 1
    exact List.map_congr_left fun c hc => stepOf_plain (ht c (List.drop_subset _ _ hc)).1
  rw [← hsteps] at hwalk
  unfold relativeFrom
  dsimp only
  split_ifs with hnil
  · rw [hnil] at hwalk
    exact hwalk
  · rwa [split_join hnil]
    intro c hc
    rcases List.mem_append.1 hc with hc | hc
    · rw [List.eq_of_mem_replicate hc]
      decide
    · exact (ht c (List.drop_subset _ _ hc)).2

theorem isAbsolute_relativeFrom
    (ht : ∀ c ∈ target, IsPlain c ∧ slash ∉ c) : (relativeFrom link target).isAbsolute = false := by
  unfold relativeFrom
  dsimp only
  split_ifs with hnil
  · rfl
  · obtain ⟨c, rest, hparts⟩ := List.exists_cons_of_ne_nil hnil
    have hc : c ≠ [] ∧ slash ∉ c := by
      rcases List.mem_append.1 (hparts ▸ List.mem_cons_self : c ∈ _) with hc | hc
      · rw [List.eq_of_mem_replicate hc]
        exact ⟨by decide, by decide⟩
      · have := ht c (List.drop_subset _ _ hc)
        exact ⟨this.1.1, this.2⟩
    obtain ⟨x, c, rfl⟩ := List.exists_cons_of_ne_nil hc.1
    have hx : x ≠ slash := fun h => hc.2 (h ▸ List.mem_cons_self)
    rw [hparts]
    cases rest with
    | nil => simpa [isAbsolute, join, List.intercalate] using hx
    | cons d rest => simpa [isAbsolute, join, List.intercalate, List.intersperse] using hx

theorem stays_relativeFrom (ht : ∀ c ∈ target, IsPlain c ∧ slash ∉ c) :
    storedTargetStaysInMount link (relativeFrom link target) = true := by
  refine stays_iff_allowed.2 ⟨isAbsolute_relativeFrom ht, isSome_walk.1 ?_⟩
  rw [walk_relativeFrom ht]
  rfl

section Symlink

variable [Unicode]

theorem storedTarget_of_located {v : Vfs} {link lexical followed : Located} {target : OsStr}
    {h : Host} {landing : VirtualPath}
    (hres : (link.virtualPath.parent.getD .root).resolve target = .ok landing)
    (hlex : v.locateExact landing = .ok lexical) (hat : lexical.mount.at = link.mount.at)
    (hfol : v.locate landing true h = .ok followed) (hfat : followed.mount.at = link.mount.at) :
    v.storedTarget link target h = .ok (relativeFrom link.relative lexical.relative) := by
  have hstays : storedTargetStaysInMount link.relative
      (relativeFrom link.relative lexical.relative) = true := stays_relativeFrom fun c hc =>
    ⟨(isComponent_of_exact hlex hc).isPlain, (isComponent_of_exact hlex hc).no_slash⟩
  unfold storedTarget
  rw [hres]
  show (v.locateExact landing).bind _ = _
  rw [hlex]
  show (if lexical.mount.at ≠ link.mount.at then _ else (v.locate landing true h).bind _) = _
  rw [if_neg (not_not.2 hat), hfol]
  show (if followed.mount.at ≠ link.mount.at then _ else _) = _
  rw [if_neg (not_not.2 hfat), if_pos hstays]

/-- **A stored target.** The way from a link to a path of its mount arrives there without climbing
above the mount's directory, so `symlink` never refuses it for leaving the mount; and a text stays
in the mount exactly when it is relative and no beginning of it climbs more often than it descends
and the link's directory is deep. -/
theorem stored_target_arrives_and_stays :
    (∀ link target : List OsStr, (∀ c ∈ link, Ordinary c) → (∀ c ∈ target, Ordinary c) →
      walk link.dropLast ((relativeFromPath link target).split.map stepOf) = some target ∧
        storedTargetStaysInMount link (relativeFromPath link target) = true) ∧
    (∀ (v : Vfs) (link lexical followed : Located) (target : OsStr) (h : Host)
      (landing : VirtualPath),
      (link.virtualPath.parent.getD .root).resolve target = .ok landing →
      v.locateExact landing = .ok lexical → lexical.mount.at = link.mount.at →
      v.locate landing true h = .ok followed → followed.mount.at = link.mount.at →
        v.storedTarget link target h = .ok (relativeFrom link.relative lexical.relative)) ∧
    ∀ (link : List OsStr) (stored : OsStr), (∀ c ∈ link, Ordinary c) →
      (storedTargetStaysInMount link stored = true ↔ stored.isAbsolute = false ∧
        ∀ start, start <+: stored.split → start.count dotdot ≤
          link.dropLast.length + start.countP fun c => IsPlain c) := by
  refine ⟨fun link target _ ht => ?_, fun _ _ _ _ _ _ _ => storedTarget_of_located,
    fun link stored _ => ?_⟩
  · have hplain : ∀ c ∈ target, IsPlain c ∧ slash ∉ c := fun c hc =>
      ⟨(ht c hc).isPlain, (ht c hc).no_slash⟩
    rw [relativeFromPath_eq fun c hc => (ht c hc).isUtf8]
    exact ⟨walk_relativeFrom hplain, stays_relativeFrom hplain⟩
  · rw [stays_iff_allowed, allowed_split]

end Symlink

section Fixture

attribute [local instance] composed

/-- A link two directories down to a name of the mount's directory, made by `symlink`. -/
theorem stored_target_beside :
    storedTargetStaysInMount [os "a", os "b", os "new"] (os "../../notes") = true ∧
      soleVfs.storedTarget ⟨soleMount, [os "a", os "b", os "new"],
        ⟨[os "work", os "a", os "b", os "new"], by decide⟩⟩ (os "../../notes") linkedHost =
          .ok (os "../../notes") := by
  have hlink : ∀ c ∈ [os "a", os "b", os "new"], Ordinary c := by
    simp only [List.forall_mem_cons]
    exact ⟨⟨by decide, by decide, by decide⟩, ⟨by decide, by decide, by decide⟩,
      ⟨by decide, by decide, by decide⟩, nofun⟩
  refine ⟨((stored_target_arrives_and_stays.2.2 _ _ hlink).2 ⟨by decide, ?_⟩), ?_⟩
  · intro start hstart
    have hall : ∀ start ∈ (os "../../notes").split.inits, start.count dotdot ≤
        [os "a", os "b", os "new"].dropLast.length + start.countP fun c => IsPlain c := by decide
    exact hall start ((List.mem_inits _ _).2 hstart)
  · exact stored_target_arrives_and_stays.2.1 soleVfs _
      ⟨soleMount, [os "notes"], ⟨[os "work", os "notes"], by decide⟩⟩
      ⟨soleMount, [os "notes"], ⟨[os "work", os "notes"], by decide⟩⟩ (os "../../notes") linkedHost
      ⟨[os "work", os "notes"], by decide⟩ (by decide) (by decide) rfl (by decide) rfl

end Fixture

end Seahaven.Vfs
