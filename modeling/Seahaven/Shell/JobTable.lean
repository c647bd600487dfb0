import Mathlib.Data.List.Count
import Mathlib.Data.List.Induction
import Mathlib.Data.List.Nodup
import Seahaven.Shell.Jobs

/-!
# The annotations of jobs

The annotations are changed where a job is added, and nowhere else.

1. `Orderly`: the numbers of a table are distinct, one job is the current one, one at most the
   previous one, and a spec names one job at most.
2. `step_keys`: what an event does to the numbers and annotations.
3. `orderly_iff`: a run goes through orderly tables if and only if no job is added where there is a
   previous one, and the current one is only removed with all others.
-/

namespace Seahaven.Shell.Jobs

variable {ε : Type}

/-! ## Statement -/

def annotations (jobs : List (Job ε)) : List JobAnnotation := jobs.map Job.annotation

/-- A table as it should be. -/
structure Orderly (m : JobManager ε) : Prop where
  ids : (m.jobs.map Job.id).Nodup
  oneCurrent : (annotations m.jobs).count .current ≤ 1
  onePrevious : (annotations m.jobs).count .previous ≤ 1
  hasCurrent : m.jobs ≠ [] → .current ∈ annotations m.jobs
  specs : ∀ spec job, m.resolveJobSpec spec = some job →
    ∃ s, JobSpec.parse spec = some s ∧ s.names job = true ∧
      ∀ other ∈ m.jobs, s.names other = true → other = job
  unnamed : ∀ spec s, JobSpec.parse spec = some s → m.resolveJobSpec spec = none →
    ∀ job ∈ m.jobs, s.names job = false

def Promotes (m m' : JobManager ε) : Prop :=
  ∀ c ∈ m.jobs, c.annotation = .current → c.id ∉ m'.jobs.map Job.id →
    ∀ p ∈ m.jobs, p.annotation = .previous → ∀ p' ∈ m'.jobs, p'.id = p.id →
      p'.annotation = .current

/-- **Tables.** Every table of a run is as it should be, and so is every event. -/
structure OrderlyRun (events : List (JobEvent ε)) : Prop where
  tables : ∀ before after m, events = before ++ after → JobManager.run before = some m → Orderly m
  promotes : ∀ before event after m m', events = before ++ event :: after →
    JobManager.run before = some m → m.step event = some m' → Promotes m m'

namespace Job

/-- `poll` removes the job. -/
def leavesPoll (ready : Nat → Bool) (job : Job ε) : Bool :=
  match job.pollDone ready with
  | none => false
  | some (result, job) => result.isSome || job.state = .done

def leavesWait (events : Nat → WaitEvent ε) (job : Job ε) : Bool :=
  match job.wait events with
  | none => false
  | some (_, job) => job.tasks.isEmpty

def waitsWell (events : Nat → WaitEvent ε) (job : Job ε) : Bool :=
  match job.wait events with
  | some (.ok _, _) => true
  | _ => false

end Job

def Removes (m : JobManager ε) (event : JobEvent ε) (job : Job ε) : Prop :=
  match event with
  | .poll ready => job.leavesPoll ready = true
  | .waitAll events => (∀ j ∈ m.jobs, j.waitsWell events = true) ∧ job.leavesWait events = true
  | _ => False

/-- A job is added only where no job is the previous one, and the current job is removed only with
all others. -/
def KeepsOrder (m : JobManager ε) (event : JobEvent ε) : Prop :=
  (∀ tasks stopped, event = .add tasks stopped → .previous ∉ annotations m.jobs) ∧
    ∀ c ∈ m.jobs, c.annotation = .current → Removes m event c → ∀ job ∈ m.jobs, Removes m event job

/-! ## Numbers -/

theorem nextIdFrom_not_mem {ids : List Nat} {id n : Nat}
    (h : (ids.filter fun k => id ≤ k).length ≤ n) : nextIdFrom ids id n ∉ ids := by
  induction n generalizing id with
  | zero =>
    intro hmem
    have hfilter : id ∈ ids.filter fun k => id ≤ k :=
      List.mem_filter.2 ⟨hmem, decide_eq_true (Nat.le_refl id)⟩
    rw [List.length_eq_zero_iff.1 (Nat.le_zero.1 h)] at hfilter
    cases hfilter
  | succ n ih =>
    unfold nextIdFrom
    split_ifs with hmem
    · refine ih (Nat.le_of_lt_succ (Nat.lt_of_lt_of_le ?_ h))
      have hfilter : (ids.filter fun k => id + 1 ≤ k) =
          (ids.filter fun k => id ≤ k).filter fun k => id + 1 ≤ k := by
        rw [List.filter_filter]
        refine List.filter_congr fun k _ => ?_
        rw [← Bool.decide_and]
        exact decide_eq_decide.2 ⟨fun hk => ⟨hk, by omega⟩, And.left⟩
      rw [hfilter, List.length_filter_lt_length_iff_exists]
      exact ⟨id, List.mem_filter.2 ⟨hmem, by simp⟩, by simp⟩
    · exact hmem

theorem nextId_not_mem (jobs : List (Job ε)) : nextId jobs ∉ jobs.map Job.id := by
  refine nextIdFrom_not_mem ((List.length_filter_le _ _).trans ?_)
  rw [List.length_map]

/-! ## What events do -/

def Job.key (job : Job ε) : Nat × JobAnnotation := (job.id, job.annotation)

variable {jobs : List (Job ε)}

section Keys

theorem pollDone_key {ready : Nat → Bool} {job job' : Job ε}
    {result : Option (Except (Failure ε) Interp.ExecutionResult)}
    (h : job.pollDone ready = some (result, job')) : job'.key = job.key := by
  unfold Job.pollDone at h
  split at h
  · cases h
  · cases h
    rfl
  · cases h
    rfl

variable {events : Nat → WaitEvent ε}

theorem wait_key {job job' : Job ε}
    {result : Except (Failure ε) Interp.ExecutionResult}
    (h : job.wait events = some (result, job')) : job'.key = job.key := by
  unfold Job.wait at h
  split at h <;> cases h <;> rfl

variable {kept : List (Job ε)}

theorem pollJobs_keys {ready : Nat → Bool}
    {removed : List (Job ε × Except (Failure ε) Interp.ExecutionResult)}
    (h : pollJobs ready jobs = some (removed, kept)) :
    kept.map Job.key = (jobs.filter fun job => !job.leavesPoll ready).map Job.key := by
  induction jobs generalizing removed kept with
  | nil =>
    cases h
    rfl
  | cons job jobs ih =>
    unfold pollJobs at h
    split at h
    · cases h
    · rename_i result job' hpoll
      obtain ⟨⟨removed', kept'⟩, hrest, heq⟩ := Option.map_eq_some_iff.1 h
      cases heq
      have hleaves : job.leavesPoll ready = true := by simp [Job.leavesPoll, hpoll]
      rw [List.filter_cons_of_neg (by simp [hleaves]), ih hrest]
    · rename_i job' hpoll
      split_ifs at h with hstate
      · obtain ⟨⟨removed', kept'⟩, hrest, heq⟩ := Option.map_eq_some_iff.1 h
        cases heq
        have hleaves : job.leavesPoll ready = true := by simp [Job.leavesPoll, hpoll, hstate]
        rw [List.filter_cons_of_neg (by simp [hleaves]), ih hrest]
      · obtain ⟨⟨removed', kept'⟩, hrest, heq⟩ := Option.map_eq_some_iff.1 h
        cases heq
        have hleaves : job.leavesPoll ready = false := by simp [Job.leavesPoll, hpoll, hstate]
        rw [List.filter_cons_of_pos (by simp [hleaves]), List.map_cons, List.map_cons, ih hrest,
          pollDone_key hpoll]

theorem waitJobs_keys
    {failure : Option (Failure ε)} (h : waitJobs events jobs = some (failure, kept)) :
    kept.map Job.key = jobs.map Job.key ∧
      (failure = none ↔ ∀ job ∈ jobs, job.waitsWell events = true) ∧
      (failure = none → (kept.filter fun job => !job.tasks.isEmpty).map Job.key =
        (jobs.filter fun job => !job.leavesWait events).map Job.key) := by
  induction jobs generalizing failure kept with
  | nil =>
    cases h
    simp
  | cons job jobs ih =>
    unfold waitJobs at h
    split at h
    · cases h
    · rename_i hwait
      cases h
      refine ⟨by simp [wait_key hwait], ?_, nofun⟩
      refine iff_of_false nofun fun hall => ?_
      have hwell := hall job List.mem_cons_self
      simp [Job.waitsWell, hwait] at hwell
    · rename_i result job' hwait
      obtain ⟨⟨failure', kept'⟩, hrest, heq⟩ := Option.map_eq_some_iff.1 h
      cases heq
      obtain ⟨hkeys, hwell, hempty⟩ := ih hrest
      have hjob : job.waitsWell events = true := by simp [Job.waitsWell, hwait]
      have hleaves : job.leavesWait events = job'.tasks.isEmpty := by
        simp [Job.leavesWait, hwait]
      refine ⟨by rw [List.map_cons, List.map_cons, hkeys, wait_key hwait], ?_, fun hnone => ?_⟩
      · rw [hwell, List.forall_mem_cons, and_iff_right hjob]
      · rw [List.filter_cons, List.filter_cons, hleaves]
        split_ifs
        · rw [List.map_cons, List.map_cons, hempty hnone, wait_key hwait]
        · exact hempty hnone

theorem waitNamed_keys {spec : JobSpec}
    {result : Option (Except (Failure ε) Interp.ExecutionResult)}
    (h : waitNamed events spec jobs = some (result, kept)) :
    kept.map Job.key = jobs.map Job.key := by
  induction jobs generalizing result kept with
  | nil =>
    cases h
    rfl
  | cons job jobs ih =>
    unfold waitNamed at h
    split_ifs at h
    · obtain ⟨⟨result', job'⟩, hwait, heq⟩ := Option.map_eq_some_iff.1 h
      cases heq
      rw [List.map_cons, List.map_cons, wait_key hwait]
    · obtain ⟨⟨result', kept'⟩, hrest, heq⟩ := Option.map_eq_some_iff.1 h
      cases heq
      rw [List.map_cons, List.map_cons, ih hrest]

end Keys

open Classical in
/-- **Step.** An event adds a job, or leaves the jobs that it does not remove. -/
theorem step_keys {m m' : JobManager ε} {event : JobEvent ε} (h : m.step event = some m') :
    (∃ tasks stopped, event = .add tasks stopped ∧
      m'.jobs.map Job.key = (demoteCurrent m.jobs).map Job.key ++
        [(nextId (demoteCurrent m.jobs), .current)]) ∨
    (∀ tasks stopped, event ≠ .add tasks stopped) ∧
      m'.jobs.map Job.key = (m.jobs.filter fun job => ¬Removes m event job).map Job.key := by
  cases event with
  | add tasks stopped =>
    refine .inl ⟨tasks, stopped, rfl, ?_⟩
    cases h
    exact List.map_append
  | poll ready =>
    refine .inr ⟨nofun, ?_⟩
    obtain ⟨⟨removed, m₁⟩, hpoll, rfl⟩ := Option.map_eq_some_iff.1 h
    obtain ⟨⟨removed', kept⟩, hjobs, heq⟩ := Option.map_eq_some_iff.1 hpoll
    cases heq
    rw [pollJobs_keys hjobs]
    congr 1
    refine List.filter_congr fun job _ => ?_
    simp [Removes]
  | waitAll events =>
    refine .inr ⟨nofun, ?_⟩
    obtain ⟨⟨result, m₁⟩, hwait, rfl⟩ := Option.map_eq_some_iff.1 h
    unfold JobManager.waitAll at hwait
    split at hwait
    · cases hwait
    · rename_i failure jobs hjobs
      cases hwait
      obtain ⟨hkeys, hwell, -⟩ := waitJobs_keys hjobs
      have hnone : ∀ job ∈ m.jobs, decide (¬Removes m (.waitAll events) job) = true :=
        fun job _ => decide_eq_true fun hremoves => absurd (hwell.2 hremoves.1) (by simp)
      rw [List.filter_eq_self.2 hnone]
      exact hkeys
    · rename_i jobs hjobs
      cases hwait
      obtain ⟨-, hwell, hempty⟩ := waitJobs_keys hjobs
      refine (hempty rfl).trans ?_
      congr 1
      refine List.filter_congr fun job _ => ?_
      simp only [Removes, and_iff_right (hwell.1 rfl)]
      simp
  | wait spec events =>
    refine .inr ⟨nofun, ?_⟩
    have hall : ∀ job ∈ m.jobs, decide (¬Removes m (.wait spec events) job) = true :=
      fun job _ => decide_eq_true id
    rw [List.filter_eq_self.2 hall]
    have hwait : m.waitJob events spec = some m' := h
    unfold JobManager.waitJob at hwait
    split at hwait
    · cases hwait
      rfl
    · obtain ⟨⟨result, kept⟩, hnamed, rfl⟩ := Option.map_eq_some_iff.1 hwait
      exact waitNamed_keys hnamed

/-! ## Numbers and annotations -/

/-- Tables with these numbers and annotations are as they should be. -/
structure OrderlyKeys (keys : List (Nat × JobAnnotation)) : Prop where
  ids : (keys.map Prod.fst).Nodup
  oneCurrent : (keys.map Prod.snd).count .current ≤ 1
  onePrevious : (keys.map Prod.snd).count .previous ≤ 1
  hasCurrent : keys ≠ [] → .current ∈ keys.map Prod.snd

theorem ids_eq_keys (jobs : List (Job ε)) : jobs.map Job.id = (jobs.map Job.key).map Prod.fst := by
  rw [List.map_map]
  rfl

theorem annotations_eq_keys (jobs : List (Job ε)) :
    annotations jobs = (jobs.map Job.key).map Prod.snd := by
  rw [List.map_map]
  rfl

theorem eq_of_count_le_one {a : JobAnnotation}
    (h : (annotations jobs).count a ≤ 1) {j k : Job ε} (hj : j ∈ jobs) (hk : k ∈ jobs)
    (hja : j.annotation = a) (hka : k.annotation = a) : j = k := by
  rw [annotations, List.count, List.countP_map, List.countP_eq_length_filter] at h
  have hmem : ∀ {job : Job ε}, job ∈ jobs → job.annotation = a →
      job ∈ jobs.filter ((fun b => b == a) ∘ Job.annotation) :=
    fun hjob ha => List.mem_filter.2 ⟨hjob, by simp [ha]⟩
  have hj' := hmem hj hja
  have hk' := hmem hk hka
  match hfilter : jobs.filter ((fun b => b == a) ∘ Job.annotation) with
  | [] =>
    rw [hfilter] at hj'
    cases hj'
  | [job] =>
    rw [hfilter, List.mem_singleton] at hj' hk'
    rw [hj', hk']
  | _ :: _ :: _ =>
    rw [hfilter] at h
    simp at h

theorem orderly_iff_keys {m : JobManager ε} :
    Orderly m ↔ OrderlyKeys (m.jobs.map Job.key) := by
  constructor
  · intro h
    refine ⟨ids_eq_keys m.jobs ▸ h.ids, annotations_eq_keys m.jobs ▸ h.oneCurrent,
      annotations_eq_keys m.jobs ▸ h.onePrevious, fun hne => ?_⟩
    rw [← annotations_eq_keys]
    exact h.hasCurrent fun hnil => hne (by rw [hnil]; rfl)
  · rintro ⟨hids, hcurrent, hprevious, hhas⟩
    rw [← ids_eq_keys] at hids
    rw [← annotations_eq_keys] at hcurrent hprevious hhas
    refine ⟨hids, hcurrent, hprevious, fun hne => hhas (by simpa using hne), ?_, ?_⟩
    · intro spec job hresolve
      obtain ⟨s, hparse, hfind⟩ := Option.bind_eq_some_iff.1 hresolve
      have hnames : s.names job = true := List.find?_some hfind
      have hjob : job ∈ m.jobs := List.mem_of_find?_eq_some hfind
      refine ⟨s, hparse, hnames, fun other hother hnames' => ?_⟩
      cases s with
      | current =>
        exact eq_of_count_le_one hcurrent hother hjob (of_decide_eq_true hnames')
          (of_decide_eq_true hnames)
      | previous =>
        exact eq_of_count_le_one hprevious hother hjob (of_decide_eq_true hnames')
          (of_decide_eq_true hnames)
      | id n =>
        refine List.inj_on_of_nodup_map hids hother hjob ?_
        rw [of_decide_eq_true hnames', of_decide_eq_true hnames]
    · intro spec s hparse hresolve job hjob
      rw [JobManager.resolveJobSpec, hparse, Option.bind_some, List.find?_eq_none] at hresolve
      simpa using hresolve job hjob

section Demote

theorem demoteCurrent_ids (jobs : List (Job ε)) :
    (demoteCurrent jobs).map Job.id = jobs.map Job.id := by
  induction jobs with
  | nil => rfl
  | cons job jobs ih =>
    unfold demoteCurrent
    split_ifs
    · rfl
    · rw [List.map_cons, List.map_cons, ih]

theorem demoteCurrent_current (jobs : List (Job ε)) :
    (annotations (demoteCurrent jobs)).count .current = (annotations jobs).count .current - 1 := by
  induction jobs with
  | nil => rfl
  | cons job jobs ih =>
    unfold demoteCurrent
    split_ifs with hcurrent
    · simp [annotations, hcurrent]
    · have hne : (job.annotation == JobAnnotation.current) = false := by simpa using hcurrent
      simp only [annotations, List.map_cons, List.count_cons, hne] at ih ⊢
      exact ih

theorem demoteCurrent_previous (jobs : List (Job ε)) :
    (annotations (demoteCurrent jobs)).count .previous =
      (annotations jobs).count .previous + if .current ∈ annotations jobs then 1 else 0 := by
  induction jobs with
  | nil => rfl
  | cons job jobs ih =>
    unfold demoteCurrent
    split_ifs with hcurrent hmem hmem
    · simp [annotations, hcurrent]
    · simp [annotations, hcurrent] at hmem
    · have hmem' : .current ∈ annotations jobs := by
        simpa [annotations, Ne.symm hcurrent] using hmem
      rw [if_pos hmem'] at ih
      simp only [annotations, List.map_cons, List.count_cons] at ih ⊢
      omega
    · have hmem' : .current ∉ annotations jobs := fun h => hmem (List.mem_cons_of_mem _ h)
      rw [if_neg hmem'] at ih
      simp only [annotations, List.map_cons, List.count_cons] at ih ⊢
      omega

end Demote

/-! ## Events and order -/

section Events

variable {m m' : JobManager ε} {event : JobEvent ε}

/-- **Step.** Where an event may be taken, it keeps the order. -/
theorem orderly_step (hm : Orderly m) (hevent : KeepsOrder m event)
    (h : m.step event = some m') : Orderly m' := by
  classical
  rw [orderly_iff_keys]
  rcases step_keys h with ⟨tasks, stopped, rfl, hkeys⟩ | ⟨-, hkeys⟩
  · have hprevious : (annotations m.jobs).count .previous = 0 :=
      List.count_eq_zero.2 (hevent.1 tasks stopped rfl)
    have hcurrent := hm.oneCurrent
    have hdemoted := demoteCurrent_current m.jobs
    have hpromoted := demoteCurrent_previous m.jobs
    rw [hkeys]
    constructor
    · rw [List.map_append, ← ids_eq_keys, List.map_singleton]
      refine List.nodup_append.2 ⟨demoteCurrent_ids m.jobs ▸ hm.ids, List.nodup_singleton _, ?_⟩
      intro id hid id' hid' heq
      rw [List.mem_singleton.1 hid'] at heq
      exact nextId_not_mem _ (heq ▸ hid)
    · rw [List.map_append, ← annotations_eq_keys, List.count_append, hdemoted]
      have hone : ([(nextId (demoteCurrent m.jobs), JobAnnotation.current)].map Prod.snd).count
          .current = 1 := rfl
      omega
    · rw [List.map_append, ← annotations_eq_keys, List.count_append, hpromoted, hprevious]
      have hnone : ([(nextId (demoteCurrent m.jobs), JobAnnotation.current)].map Prod.snd).count
          .previous = 0 := rfl
      rw [hnone]
      split_ifs <;> simp
    · intro _
      rw [List.map_append]
      exact List.mem_append_right _ (List.mem_singleton_self _)
  · rw [hkeys]
    have hsub : (m.jobs.filter fun job => ¬Removes m event job).Sublist m.jobs :=
      List.filter_sublist
    constructor
    · rw [← ids_eq_keys]
      exact hm.ids.sublist (hsub.map _)
    · rw [← annotations_eq_keys]
      exact ((hsub.map _).count_le _).trans hm.oneCurrent
    · rw [← annotations_eq_keys]
      exact ((hsub.map _).count_le _).trans hm.onePrevious
    · intro hne
      rw [← annotations_eq_keys]
      have hkeptne : (m.jobs.filter fun job => ¬Removes m event job) ≠ [] :=
        fun hnil => hne (by rw [hnil]; rfl)
      obtain ⟨kept, hkept⟩ := List.exists_mem_of_ne_nil _ hkeptne
      obtain ⟨hmem, hstays⟩ := List.mem_filter.1 hkept
      obtain ⟨c, hc, hcurrent⟩ := List.mem_map.1 (hm.hasCurrent (List.ne_nil_of_mem hmem))
      refine List.mem_map.2 ⟨c, List.mem_filter.2 ⟨hc, decide_eq_true fun hremoves => ?_⟩, hcurrent⟩
      have hstays' : ¬Removes m event kept := of_decide_eq_true hstays
      exact hstays' (hevent.2 c hc hcurrent hremoves kept hmem)

theorem keepsOrder_of_orderly (hm : Orderly m) (hm' : Orderly m') (h : m.step event = some m') :
    KeepsOrder m event := by
  classical
  rw [orderly_iff_keys] at hm'
  rcases step_keys h with ⟨tasks, stopped, rfl, hkeys⟩ | ⟨hadd, hkeys⟩
  · refine ⟨fun _ _ _ hprevious => ?_, nofun⟩
    have hcurrent : .current ∈ annotations m.jobs := by
      refine hm.hasCurrent fun hnil => ?_
      rw [hnil] at hprevious
      cases hprevious
    have hcount := hm'.onePrevious
    rw [hkeys, List.map_append, ← annotations_eq_keys, List.count_append, demoteCurrent_previous,
      if_pos hcurrent] at hcount
    have hpos := List.count_pos_iff.2 hprevious
    omega
  · refine ⟨fun tasks stopped heq => absurd heq (hadd tasks stopped), ?_⟩
    intro c hc hcurrent hremoves job hjob
    by_contra hstays
    have hkept : job ∈ m.jobs.filter fun job => ¬Removes m event job :=
      List.mem_filter.2 ⟨hjob, decide_eq_true hstays⟩
    have hhas := hm'.hasCurrent (by
      rw [hkeys]
      exact List.ne_nil_of_mem (List.mem_map_of_mem hkept))
    rw [hkeys, ← annotations_eq_keys] at hhas
    obtain ⟨k, hk, hkcurrent⟩ := List.mem_map.1 hhas
    obtain ⟨hkmem, hkstays⟩ := List.mem_filter.1 hk
    obtain rfl := eq_of_count_le_one hm.oneCurrent hc hkmem hcurrent hkcurrent
    have hkstays' : ¬Removes m event c := of_decide_eq_true hkstays
    exact hkstays' hremoves

theorem promotes_step (hevent : KeepsOrder m event) (h : m.step event = some m') :
    Promotes m m' := by
  classical
  intro c hc hcurrent hgone p _ _ p' hp' _
  exfalso
  rcases step_keys h with ⟨tasks, stopped, rfl, hkeys⟩ | ⟨-, hkeys⟩
  · refine hgone ?_
    rw [ids_eq_keys, hkeys, List.map_append, ← ids_eq_keys, demoteCurrent_ids]
    exact List.mem_append_left _ (List.mem_map_of_mem hc)
  · have hremoves : Removes m event c := by
      by_contra hstays
      refine hgone ?_
      rw [ids_eq_keys, hkeys, ← ids_eq_keys]
      exact List.mem_map_of_mem (List.mem_filter.2 ⟨hc, decide_eq_true hstays⟩)
    have hmem : p'.key ∈ (m.jobs.filter fun job => ¬Removes m event job).map Job.key :=
      hkeys ▸ List.mem_map_of_mem hp'
    obtain ⟨job, hjob, -⟩ := List.mem_map.1 hmem
    obtain ⟨hjobmem, hstays⟩ := List.mem_filter.1 hjob
    have hstays' : ¬Removes m event job := of_decide_eq_true hstays
    exact hstays' (hevent.2 c hc hcurrent hremoves job hjobmem)

end Events

/-! ## Runs -/

theorem orderly_empty : Orderly (JobManager.empty : JobManager ε) := by
  rw [orderly_iff_keys]
  exact ⟨List.nodup_nil, Nat.zero_le _, Nat.zero_le _, fun hne => absurd rfl hne⟩

theorem orderly_run {events : List (JobEvent ε)}
    (h : ∀ before event after m m', events = before ++ event :: after →
      JobManager.run before = some m → m.step event = some m' → KeepsOrder m event)
    {m : JobManager ε} (hm : JobManager.run events = some m) : Orderly m := by
  induction events using List.reverseRecOn generalizing m with
  | nil =>
    cases hm
    exact orderly_empty
  | append_singleton events event ih =>
    rw [JobManager.run_concat] at hm
    obtain ⟨m₀, hbefore, hstep⟩ := Option.bind_eq_some_iff.1 hm
    have hm₀ := ih (fun before event' after m₁ m₂ hevents hrun hnext =>
      h before event' (after ++ [event]) m₁ m₂ (by rw [hevents]; simp) hrun hnext) hbefore
    exact orderly_step hm₀ (h events event [] m₀ m rfl hbefore hstep) hstep

/-- **The job table.** Along a run every table is as it should be if and only if no job is added
where there is a previous one, and the current job is removed only with all others. -/
theorem orderly_iff (events : List (JobEvent ε)) :
    OrderlyRun events ↔
      ∀ before event after m m', events = before ++ event :: after →
        JobManager.run before = some m → m.step event = some m' → KeepsOrder m event := by
  constructor
  · intro h before event after m m' hevents hbefore hstep
    have hm := h.tables before (event :: after) m hevents hbefore
    have hm' := h.tables (before ++ [event]) after m' (by rw [hevents]; simp)
      (by rw [JobManager.run_concat, hbefore]; exact hstep)
    exact keepsOrder_of_orderly hm hm' hstep
  · intro h
    constructor
    · intro before after m hevents hrun
      refine orderly_run (fun before' event after' m₁ m₂ hbefore hrun' hstep => ?_) hrun
      exact h before' event (after' ++ after) m₁ m₂ (by rw [hevents, hbefore]; simp) hrun' hstep
    · intro before event after m m' hevents hbefore hstep
      exact promotes_step (h before event after m m' hevents hbefore hstep) hstep

def addOne (handle : Nat) : JobEvent Unit :=
  .add [(handle, .internal (.returned (.ok .success)))] false

/-- Of three jobs, the first two are both the previous one. -/
theorem not_orderly_three : ¬OrderlyRun [addOne 0, addOne 1, addOne 2] := by
  intro h
  have hm := h.tables [addOne 0, addOne 1, addOne 2] [] _ rfl rfl
  exact absurd hm.onePrevious (by decide)

end Seahaven.Shell.Jobs
