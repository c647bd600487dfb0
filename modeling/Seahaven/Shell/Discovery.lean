import Mathlib.Data.List.Infix
import Seahaven.Io

/-!
# The bound on discovery

`Bound::ceiling` climbs from a directory to the filesystem root or the first stop and answers the
outermost directory on the way that holds a source-control marker. Stops are compared by equality
with the cursor only, and running out of parents returns whatever was found, so the answer is not
held to the rule the bound is for: a directory strictly below the root and every stop.
-/

namespace Seahaven.Discovery

/-- The host as discovery asks it, before there is a namespace. -/
structure DiscoveryHost where
  /-- `Path::canonicalize`. -/
  canonicalize : HostPath → Except IoError HostPath
  /-- `Path::exists`. -/
  «exists» : HostPath → Bool
  /-- A canonical path is its own canonical form. -/
  canonicalize_idem : ∀ p q, canonicalize p = .ok q → canonicalize q = .ok q

/-- Why a directory cannot be the root of a grant. -/
inductive BoundError
  /-- The search reached a stop without finding a marker. -/
  | noMarker (start stop : HostPath)
  /-- A marker was found, but at or above a stop, so it does not bound anything. -/
  | markerAtStop (start marker stop : HostPath)
  /-- The directory lies outside the ceiling its own search produced. -/
  | outsideCeiling (root ceiling : HostPath)
  /-- The host refused to canonicalize a path. -/
  | host (path : HostPath) (source : IoError)
  deriving DecidableEq

/-- The directory a grant may not reach above, and the marker it holds. -/
structure Ceiling where
  dir : HostPath
  marker : HostPath
  deriving DecidableEq

/-- A configured bound: what counts as a marker, and where the walk stops. -/
structure Bound where
  markers : List OsStr
  stops : List HostPath

/-- `Path::join`: an absolute name replaces the directory, `.` is no component. -/
def joinName (dir : HostPath) (name : OsStr) : HostPath :=
  let comps := name.components.filter (· ≠ OsStr.dot)
  if name.isAbsolute then comps else dir ++ comps

def canonical (host : DiscoveryHost) (path : HostPath) : Except BoundError HostPath :=
  match host.canonicalize path with
  | .ok p => .ok p
  | .error source => .error (.host path source)

namespace Bound

variable (b : Bound) (host : DiscoveryHost)

/-- The stop that `dir` is. -/
def isStop (dir : HostPath) : Option HostPath := b.stops.find? fun stop => dir = stop

def markerIn (dir : HostPath) : Option HostPath :=
  b.markers.findSome? fun name =>
    let candidate := joinName dir name
    if host.exists candidate then some candidate else none

/-- The loop of `ceiling`. The cursor is given by its components, innermost first, so that its
parent is the tail. -/
def climb (start : HostPath) : List OsStr → Option Ceiling → Except BoundError Ceiling
  | cursor, outermost =>
    match b.isStop cursor.reverse with
    | some stop =>
      outermost.elim
        (.error <|
          match b.markerIn host cursor.reverse with
          | some marker => .markerAtStop start marker stop
          | none => .noMarker start stop)
        .ok
    | none =>
      let outermost :=
        match b.markerIn host cursor.reverse with
        | some marker => some ⟨cursor.reverse, marker⟩
        | none => outermost
      match cursor with
      | _ :: parent => climb start parent outermost
      | [] => outermost.elim (.error (.noMarker start cursor.reverse)) .ok

/-- The outermost marker below the first stop, searching up from `start`. -/
def ceiling (start : HostPath) : Except BoundError Ceiling := do
  let start ← canonical host start
  b.climb host start start.reverse none

/-- Whether `root` may be the root of a grant. -/
def permits (root : HostPath) : Except BoundError Ceiling := do
  let root ← canonical host root
  let ceiling ← b.ceiling host root
  if ¬ ceiling.dir.isPrefixOf root then
    .error (.outsideCeiling root ceiling.dir)
  else
    .ok ceiling

/-! ## The climb -/

/-- The climb from `start` looks for a marker in `dir`: no stop lies on the way there. -/
def Passes (start dir : HostPath) : Prop :=
  dir <+: start ∧ ∀ stop ∈ b.stops, dir <+: stop → ¬ stop <+: start

/-- `dir` holds a marker. -/
def HoldsMarker (dir : HostPath) : Prop := (b.markerIn host dir).isSome

variable {b host}

variable {dir : HostPath}

theorem isStop_eq_none_iff : b.isStop dir = none ↔ dir ∉ b.stops := by
  simp only [isStop, List.find?_eq_none, decide_eq_true_eq]
  exact ⟨fun h hd => h dir hd rfl, fun h stop hs e => h (e ▸ hs)⟩

variable {cursor stop : HostPath}

theorem not_passes_of_isStop (h : b.isStop cursor = some stop) :
    ¬ b.Passes cursor dir := by
  have hstop : cursor ∈ b.stops := by
    by_contra hc
    rw [isStop_eq_none_iff.2 hc] at h
    cases h
  exact fun hp => hp.2 cursor hstop hp.1 (List.prefix_refl _)

theorem passes_snoc {parent : HostPath} {c : OsStr}
    (h : parent ++ [c] ∉ b.stops) :
    b.Passes (parent ++ [c]) dir ↔ dir = parent ++ [c] ∨ b.Passes parent dir := by
  constructor
  · rintro ⟨hpre, hstop⟩
    refine (List.prefix_concat_iff.1 hpre).imp_right fun hdir => ⟨hdir, fun stop hs hd hsp => ?_⟩
    exact hstop stop hs hd (hsp.trans (List.prefix_append _ _))
  · rintro (rfl | ⟨hpre, hstop⟩)
    · refine ⟨List.prefix_refl _, fun stop hs hd hsp => ?_⟩
      exact h (hsp.eq_of_length (Nat.le_antisymm hsp.length_le hd.length_le) ▸ hs)
    · refine ⟨hpre.trans (List.prefix_append _ _), fun stop hs hd hsp => ?_⟩
      rcases List.prefix_concat_iff.1 hsp with rfl | hsp
      · exact h hs
      · exact hstop stop hs hd hsp

theorem passes_nil (h : [] ∉ b.stops) : b.Passes [] dir ↔ dir = [] := by
  constructor
  · exact fun hp => List.prefix_nil.1 hp.1
  · rintro rfl
    exact ⟨List.prefix_refl _, fun stop hs _ hsp => h (List.prefix_nil.1 hsp ▸ hs)⟩

/-- What a climb from `cursor` answers: the outermost marker it passes, or what was found before. -/
structure ClimbSpec (b : Bound) (host : DiscoveryHost) (cursor : HostPath)
    (outermost : Option Ceiling) (r : Except BoundError Ceiling) : Prop where
  found : ∀ c, r = .ok c →
    (b.Passes cursor c.dir ∧ b.HoldsMarker host c.dir ∧
      ∀ dir, b.Passes cursor dir → b.HoldsMarker host dir → c.dir <+: dir) ∨
    (outermost = some c ∧ ∀ dir, b.Passes cursor dir → ¬ b.HoldsMarker host dir)
  missed : ∀ e, r = .error e →
    outermost = none ∧ ∀ dir, b.Passes cursor dir → ¬ b.HoldsMarker host dir

variable {outermost : Option Ceiling}

theorem climbSpec_stop {e : BoundError}
    (h : b.isStop cursor = some stop) :
    ClimbSpec b host cursor outermost (outermost.elim (.error e) .ok) := by
  have hnone : ∀ dir, b.Passes cursor dir → ¬ b.HoldsMarker host dir :=
    fun dir hp => absurd hp (not_passes_of_isStop h)
  cases outermost with
  | none => exact ⟨(fun c hc => by cases hc), fun _ _ => ⟨rfl, hnone⟩⟩
  | some c =>
    refine ⟨fun c' hc => Or.inr ⟨?_, hnone⟩, (fun e he => by cases he)⟩
    rw [Option.elim_some] at hc
    injection hc with hc
    rw [hc]

/-- A directory that is no stop is looked at, and the climb goes on from `outermost'`: the marker it
holds if it holds one, and what was found before otherwise. -/
theorem ClimbSpec.look {r : Except BoundError Ceiling} (above : HostPath → Prop)
    (hpass : ∀ dir, b.Passes cursor dir ↔ dir = cursor ∨ above dir)
    (habove : ∀ dir, above dir → dir <+: cursor)
    (hfound : ∀ c, r = .ok c →
      (above c.dir ∧ b.HoldsMarker host c.dir ∧
        ∀ dir, above dir → b.HoldsMarker host dir → c.dir <+: dir) ∨
      ((b.markerIn host cursor).elim outermost (fun m => some ⟨cursor, m⟩) = some c ∧
        ∀ dir, above dir → ¬ b.HoldsMarker host dir))
    (hmissed : ∀ e, r = .error e →
      (b.markerIn host cursor).elim outermost (fun m => some ⟨cursor, m⟩) = none ∧
        ∀ dir, above dir → ¬ b.HoldsMarker host dir) :
    ClimbSpec b host cursor outermost r := by
  constructor
  · intro c hc
    rcases hfound c hc with ⟨hdir, hm, hall⟩ | ⟨hc, hnone⟩
    · refine Or.inl ⟨(hpass _).2 (Or.inr hdir), hm, fun dir hd hdm => ?_⟩
      rcases (hpass dir).1 hd with rfl | hd
      · exact habove _ hdir
      · exact hall dir hd hdm
    · cases hm : b.markerIn host cursor with
      | none =>
        rw [hm, Option.elim_none] at hc
        refine Or.inr ⟨hc, fun dir hd => ?_⟩
        rcases (hpass dir).1 hd with rfl | hd
        · simp [HoldsMarker, hm]
        · exact hnone dir hd
      | some m =>
        obtain rfl : Ceiling.mk cursor m = c := by simpa [hm] using hc
        refine Or.inl ⟨(hpass _).2 (Or.inl rfl), by simp [HoldsMarker, hm], fun dir hd hdm => ?_⟩
        rcases (hpass dir).1 hd with rfl | hd
        · exact List.prefix_refl _
        · exact absurd hdm (hnone dir hd)
  · intro e he
    obtain ⟨ho, hnone⟩ := hmissed e he
    cases hm : b.markerIn host cursor with
    | some m => simp [hm] at ho
    | none =>
      refine ⟨by simpa [hm] using ho, fun dir hd => ?_⟩
      rcases (hpass dir).1 hd with rfl | hd
      · simp [HoldsMarker, hm]
      · exact hnone dir hd

theorem climb_stop (host : DiscoveryHost) (start : HostPath) (cursor : List OsStr)
    (outermost : Option Ceiling)
    (h : b.isStop cursor.reverse = some stop) :
    ∃ e, b.climb host start cursor outermost = outermost.elim (.error e) .ok := by
  cases cursor <;> exact ⟨_, by rw [climb, h]⟩

variable {start : HostPath}

theorem climb_nil (h : b.isStop [] = none) :
    b.climb host start [] outermost =
      ((b.markerIn host []).elim outermost fun m => some ⟨[], m⟩).elim
        (.error (.noMarker start [])) .ok := by
  rw [climb, List.reverse_nil, h]
  cases b.markerIn host [] <;> rfl

theorem climb_cons {c : OsStr} {parent : List OsStr} (h : b.isStop (parent.reverse ++ [c]) = none) :
    b.climb host start (c :: parent) outermost =
      b.climb host start parent
        ((b.markerIn host (parent.reverse ++ [c])).elim outermost
          fun m => some ⟨parent.reverse ++ [c], m⟩) := by
  rw [climb, List.reverse_cons, h]
  cases b.markerIn host (parent.reverse ++ [c]) <;> rfl

/-- **The climb.** By induction on the components still above the cursor. -/
theorem climb_spec (start : HostPath) (cursor : List OsStr) (outermost : Option Ceiling) :
    ClimbSpec b host cursor.reverse outermost (b.climb host start cursor outermost) := by
  induction cursor generalizing outermost with
  | nil =>
    cases h : b.isStop [] with
    | some stop =>
      obtain ⟨e, he⟩ := climb_stop host start [] outermost h
      exact he ▸ climbSpec_stop h
    | none =>
      rw [climb_nil h, List.reverse_nil]
      refine ClimbSpec.look (fun _ => False)
        (fun dir => by rw [passes_nil (isStop_eq_none_iff.1 h), or_false]) (fun _ => False.elim)
        (fun c hc => Or.inr ⟨?_, fun _ => False.elim⟩) (fun e he => ⟨?_, fun _ => False.elim⟩)
      · cases ho : (b.markerIn host []).elim outermost fun m => some ⟨[], m⟩ <;>
          simp_all
      · cases ho : (b.markerIn host []).elim outermost fun m => some ⟨[], m⟩ <;>
          simp_all
  | cons c parent ih =>
    cases h : b.isStop (parent.reverse ++ [c]) with
    | some stop =>
      obtain ⟨e, he⟩ := climb_stop host start (c :: parent) outermost
        (by rwa [List.reverse_cons])
      rw [he, List.reverse_cons]
      exact climbSpec_stop h
    | none =>
      rw [climb_cons h, List.reverse_cons]
      have hrec := ih ((b.markerIn host (parent.reverse ++ [c])).elim outermost
        fun m => some ⟨parent.reverse ++ [c], m⟩)
      exact ClimbSpec.look (b.Passes parent.reverse)
        (fun dir => passes_snoc (isStop_eq_none_iff.1 h))
        (fun dir hd => hd.1.trans (List.prefix_append _ _)) hrec.found hrec.missed

/-! ## The rule for the answer -/

theorem canonical_ok {path p : HostPath} (h : host.canonicalize path = .ok p) :
    canonical host path = .ok p := by rw [canonical, h]

theorem ceiling_eq_climb {s : HostPath} (h : host.canonicalize start = .ok s) :
    b.ceiling host start = b.climb host s s.reverse none := by
  unfold ceiling
  rw [canonical_ok h]
  rfl

theorem dir_prefix_of_ceiling {s : HostPath} {c : Ceiling}
    (h : host.canonicalize start = .ok s) (hc : b.ceiling host start = .ok c) : c.dir <+: s := by
  rw [ceiling_eq_climb h] at hc
  have hspec : ClimbSpec b host s none (b.climb host s s.reverse none) := by
    simpa only [List.reverse_reverse] using climb_spec s s.reverse none
  rcases hspec.found c hc with ⟨hdir, -⟩ | ⟨hnone, -⟩
  · exact hdir.1
  · cases hnone

theorem permits_eq_ceiling {root p : HostPath} (h : host.canonicalize root = .ok p) :
    b.permits host root = b.ceiling host root := by
  have hp := host.canonicalize_idem root p h
  have hsame : b.ceiling host p = b.ceiling host root := by
    rw [ceiling_eq_climb h, ceiling_eq_climb hp]
  unfold permits
  rw [canonical_ok h]
  change (b.ceiling host p >>= _) = _
  rw [hsame]
  cases hc : b.ceiling host root with
  | error e => rfl
  | ok c =>
    have hpre : c.dir.isPrefixOf p = true :=
      List.isPrefixOf_iff_prefix.2 (dir_prefix_of_ceiling h hc)
    change (if ¬ c.dir.isPrefixOf p = true then _ else _) = _
    rw [if_neg (not_not.2 hpre)]

variable (b host)

/-- The rule: a directory that may bound a grant for `start`. -/
structure Admissible (start dir : HostPath) : Prop where
  ancestor : dir <+: start
  marker : b.HoldsMarker host dir
  not_root : dir ≠ []
  /-- It is neither a stop nor an ancestor of one. -/
  below_stops : ∀ stop ∈ b.stops, ¬ dir <+: stop
  no_stop_between : ∀ stop ∈ b.stops, dir <+: stop → ¬ stop <+: start

/-- An answer for `start` follows the rule: the outermost admissible directory or an error. -/
structure Obeys (start : HostPath) (r : Except BoundError Ceiling) : Prop where
  admissible : ∀ c, r = .ok c → b.Admissible host start c.dir
  outermost : ∀ c, r = .ok c → ∀ dir, dir <+: c.dir → dir ≠ c.dir → ¬ b.Admissible host start dir
  refused : (∀ dir, ¬ b.Admissible host start dir) → ∃ e, r = .error e

variable {b host}

/-- **When the answer follows the rule.** It does exactly when every directory with a marker that
the climb passes lies below the filesystem root and is no ancestor of a stop. -/
theorem ceiling_obeys_iff {start s : HostPath} (h : host.canonicalize start = .ok s) :
    (b.Obeys host s (b.ceiling host start) ∧ b.Obeys host s (b.permits host start)) ↔
      ∀ dir, b.Passes s dir → b.HoldsMarker host dir →
        dir ≠ [] ∧ ∀ stop ∈ b.stops, ¬ dir <+: stop := by
  rw [permits_eq_ceiling h, and_self, ceiling_eq_climb h]
  have hspec : ClimbSpec b host s none (b.climb host s s.reverse none) := by
    simpa only [List.reverse_reverse] using climb_spec s s.reverse none
  constructor
  · intro hobeys dir hpass hmarker
    cases hr : b.climb host s s.reverse none with
    | error e => exact absurd hmarker ((hspec.missed e hr).2 dir hpass)
    | ok c =>
      rcases hspec.found c hr with ⟨-, -, hall⟩ | ⟨hnone, -⟩
      · -- the answer is above `dir`, so `dir` is no higher than an admissible directory
        have hc := hobeys.admissible c hr
        have hpre := hall dir hpass hmarker
        refine ⟨?_, fun stop hs hd => hc.below_stops stop hs (hpre.trans hd)⟩
        rintro rfl
        exact hc.not_root (List.prefix_nil.1 hpre)
      · cases hnone
  · intro hcond
    refine ⟨fun c hc => ?_, fun c hc dir hdir hne hadm => ?_, fun hnone => ?_⟩
    · rcases hspec.found c hc with ⟨hpass, hm, -⟩ | ⟨hnone, -⟩
      · obtain ⟨hroot, hstops⟩ := hcond c.dir hpass hm
        exact ⟨hpass.1, hm, hroot, hstops, hpass.2⟩
      · cases hnone
    · rcases hspec.found c hc with ⟨-, -, hall⟩ | ⟨hnone, -⟩
      · have hpre := hall dir ⟨hadm.ancestor, hadm.no_stop_between⟩ hadm.marker
        exact hne (hdir.eq_of_length (Nat.le_antisymm hdir.length_le hpre.length_le))
      · cases hnone
    · cases hr : b.climb host s s.reverse none with
      | error e => exact ⟨e, rfl⟩
      | ok c =>
        rcases hspec.found c hr with ⟨hpass, hm, -⟩ | ⟨hn, -⟩
        · obtain ⟨hroot, hstops⟩ := hcond c.dir hpass hm
          exact absurd ⟨hpass.1, hm, hroot, hstops, hpass.2⟩ (hnone c.dir)
        · cases hn

/-- A host without links on which only `path` is present. -/
def hostWith (path : HostPath) : DiscoveryHost where
  canonicalize p := .ok p
  «exists» p := p = path
  canonicalize_idem _ _ _ := rfl

def homeStop : Bound := ⟨[os ".git"], [[os "srv", os "home"]]⟩

/-- A repository below a stop's sibling bounds what lies in it. -/
theorem ceiling_obeys_repository :
    homeStop.Obeys (hostWith [os "srv", os "app", os ".git"]) [os "srv", os "app", os "sub"]
        (homeStop.ceiling (hostWith [os "srv", os "app", os ".git"])
          [os "srv", os "app", os "sub"]) ∧
      homeStop.Obeys (hostWith [os "srv", os "app", os ".git"]) [os "srv", os "app", os "sub"]
        (homeStop.permits (hostWith [os "srv", os "app", os ".git"])
          [os "srv", os "app", os "sub"]) := by
  refine (ceiling_obeys_iff rfl).2 fun dir hpass hmarker => ?_
  have honly : ∀ d ∈ [os "srv", os "app", os "sub"].inits,
      (homeStop.markerIn (hostWith [os "srv", os "app", os ".git"]) d).isSome →
        d = [os "srv", os "app"] := by decide
  obtain rfl := honly dir ((List.mem_inits _ _).2 hpass.1) hmarker
  exact ⟨by decide, by decide⟩

/-- A marker at the filesystem root, or above a stop, is answered from outside every stop. -/
theorem ceiling_above_stops : ¬ homeStop.Obeys (hostWith [os ".git"]) [os "opt", os "app"]
        (homeStop.ceiling (hostWith [os ".git"]) [os "opt", os "app"]) ∧
      ¬ homeStop.Obeys (hostWith [os "srv", os ".git"]) [os "srv", os "app"]
        (homeStop.ceiling (hostWith [os "srv", os ".git"]) [os "srv", os "app"]) := by
  constructor
  · intro h
    have hc : homeStop.ceiling (hostWith [os ".git"]) [os "opt", os "app"] =
      .ok ⟨[], [os ".git"]⟩ := by decide
    exact (h.admissible _ hc).not_root rfl
  · intro h
    have hc : homeStop.ceiling (hostWith [os "srv", os ".git"]) [os "srv", os "app"] =
      .ok ⟨[os "srv"], [os "srv", os ".git"]⟩ := by decide
    exact (h.admissible _ hc).below_stops [os "srv", os "home"] (by decide) (by decide)

end Bound

end Seahaven.Discovery
