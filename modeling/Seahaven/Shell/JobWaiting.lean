import Mathlib.Data.List.Induction
import Seahaven.Shell.Jobs

/-!
# Waiting for jobs and polling them

`Job::wait` takes the tasks from the back and `Job::poll_done` from the front. A wait that meets an
error leaves the task, which has ended, in the queue.

1. `JobsRun`: what waiting and polling should do along a run.
2. `waitReports_iff` and `pollReports_last`: the results that the two report.
3. `fresh_step`: whether an event leaves a task that has ended in a queue.
4. `jobsRun_iff`: the runs that are as they should be.
-/

namespace Seahaven.Shell.Jobs

open Interp

variable {ε : Type}

/-! ## Statement -/

/-- Waiting for a job reports a result, maybe after some waits that were stopped or interrupted. -/
inductive WaitReports : Job ε → Except (Failure ε) ExecutionResult → Prop
  | ended {job : Job ε} (events : Nat → WaitEvent ε) {r : Except (Failure ε) ExecutionResult}
      {tasks : List (JobTask ε)}
      (h : waitTasks events .success job.tasks.reverse = some (.ended r, tasks)) :
      WaitReports job r
  | again {job : Job ε} (events : Nat → WaitEvent ε) {r : Except (Failure ε) ExecutionResult}
      {waited : Waited ε} {tasks : List (JobTask ε)}
      (h : waitTasks events .success job.tasks.reverse = some (waited, tasks))
      (hwaited : ∀ r, waited ≠ .ended r)
      (hrest : WaitReports { job with tasks := tasks.reverse } r) : WaitReports job r

/-- Polling a job until it is done reports a result. -/
inductive PollReports : Job ε → Except (Failure ε) ExecutionResult → Prop
  | done {job job' : Job ε} (ready : Nat → Bool) {r : Except (Failure ε) ExecutionResult}
      (h : job.pollDone ready = some (some r, job')) : PollReports job r
  | again {job job' : Job ε} (ready : Nat → Bool) {r : Except (Failure ε) ExecutionResult}
      (h : job.pollDone ready = some (none, job')) (hrest : PollReports job' r) :
      PollReports job r

/-- What is reported of a job is the result of its last task. -/
structure ReportsLast (job : Job ε) : Prop where
  wait : ∀ last, job.tasks.getLast? = some last → ∀ r, WaitReports job r → r = last.result
  poll : ∀ last, job.tasks.getLast? = some last → ∀ r, PollReports job r → r = last.result

/-- **Waiting and polling.** No handle is touched after its end, which would be a panic; once all
tasks have ended, polling finds all jobs done and removes them; and what is reported of a job is the
result of its last task. -/
structure JobsRun (events : List (JobEvent ε)) : Prop where
  single : ∀ before after, events = before ++ after → (JobManager.run before).isSome = true
  swept : ∀ before after m, events = before ++ after → JobManager.run before = some m →
    ∃ removed, m.poll (fun _ => true) = some (removed, .empty) ∧
      ∀ r ∈ removed, r.1.state = .done
  reports : ∀ tasks stopped, .add tasks stopped ∈ events → ReportsLast (Job.new tasks stopped)

def JobTask.outcome (events : Nat → WaitEvent ε) (task : JobTask ε) : Waited ε :=
  match task.kind, events task.handle with
  | .external _, .stops => .stopped
  | .external _, .fails e => .interrupted e
  | _, _ => .ended task.result

def Waited.isOk : Waited ε → Bool
  | .ended (.ok _) => true
  | _ => false

def Waited.isStopped : Waited ε → Bool
  | .stopped => true
  | _ => false

def Waited.isFailure : Waited ε → Bool
  | .ended (.error _) => true
  | _ => false

def Job.obstacle (events : Nat → WaitEvent ε) (job : Job ε) : Option (Waited ε) :=
  (job.tasks.reverse.map (JobTask.outcome events)).find? fun waited => !waited.isOk

/-- No task is added that panics, and none that ends in an error is waited for. -/
def SparesTasks (m : JobManager ε) : JobEvent ε → Prop
  | .add tasks _ => ∀ task ∈ tasks, task.2 ≠ .internal .panicked
  | .poll _ => True
  | .wait spec events => ∀ s job, JobSpec.parse spec = some s →
      m.jobs.find? s.names = some job → (job.obstacle events).any Waited.isFailure = false
  | .waitAll events => ((m.jobs.filterMap (Job.obstacle events)).find? fun waited =>
      !waited.isStopped).any Waited.isFailure = false

/-- The last task ends in an error, or none does and the first one has the result of the last. -/
def WaitAgrees (job : Job ε) : Prop :=
  ∀ first last, job.tasks.head? = some first → job.tasks.getLast? = some last →
    (∃ failure, last.result = .error failure) ∨
      (∀ task ∈ job.tasks, ∃ r, task.result = .ok r) ∧ first.result = last.result

/-! ## Results -/

variable {task : JobTask ε} {tasks rest : List (JobTask ε)} {job : Job ε}

section Results

variable {ready : Nat → Bool} {events : Nat → WaitEvent ε}

variable {task' : JobTask ε}

theorem poll_kind {b : Bool}
    {r : Option (Except (Failure ε) ExecutionResult)} (h : task.poll b = some (r, task')) :
    task'.kind = task.kind ∧ ∀ result, r = some result → result = task.result := by
  unfold JobTask.poll at h
  split_ifs at h
  · cases h
    exact ⟨rfl, nofun⟩
  · split at h
    · cases h
      exact ⟨rfl, nofun⟩
    · cases h
      exact ⟨rfl, fun result hresult => (Option.some.inj hresult).symm⟩

theorem result_of_kind (h : task'.kind = task.kind) :
    task'.result = task.result := by
  unfold JobTask.result
  rw [h]

theorem pollTasks_last {polled : Polled ε}
    {acc : Option (Except (Failure ε) ExecutionResult)}
    (h : pollTasks ready acc tasks = some (polled, rest)) :
    (∀ r, polled = .done r → rest = [] ∧ r = (tasks.getLast?.map JobTask.result).or acc) ∧
      (polled = .pending → rest.getLast?.map JobTask.result =
        tasks.getLast?.map JobTask.result) := by
  induction tasks generalizing acc with
  | nil =>
    cases h
    exact ⟨fun r hr => by cases hr; exact ⟨rfl, rfl⟩, nofun⟩
  | cons task tasks ih =>
    unfold pollTasks at h
    split at h
    · cases h
    · rename_i r task' hpoll
      obtain ⟨hdone, hpending⟩ := ih h
      have hresult := (poll_kind hpoll).2 r rfl
      cases tasks with
      | nil =>
        refine ⟨fun r' hr' => ⟨(hdone r' hr').1, ?_⟩, fun hp => ?_⟩
        · rw [(hdone r' hr').2, hresult]
          rfl
        · cases h
          cases hp
      | cons next tasks =>
        refine ⟨fun r' hr' => ⟨(hdone r' hr').1, ?_⟩, fun hp => ?_⟩
        · rw [(hdone r' hr').2, List.getLast?_cons_cons]
          cases hlast : (next :: tasks).getLast? with
          | none => simp at hlast
          | some last => rfl
        · rw [hpending hp, List.getLast?_cons_cons]
    · rename_i task' hpoll
      cases h
      refine ⟨nofun, fun _ => ?_⟩
      cases tasks with
      | nil =>
        show some task'.result = some task.result
        rw [result_of_kind (poll_kind hpoll).1]
      | cons next tasks => rw [List.getLast?_cons_cons, List.getLast?_cons_cons]

/-- **Polling.** What polling reports is the result of the last task. -/
theorem pollReports_last {r : Except (Failure ε) ExecutionResult}
    (h : PollReports job r) {last : JobTask ε} (hlast : job.tasks.getLast? = some last) :
    r = last.result := by
  have key : some r = job.tasks.getLast?.map JobTask.result := by
    clear hlast
    induction h with
    | @done job job' ready r h =>
      unfold Job.pollDone at h
      split at h
      · cases h
      · cases h
      · rename_i result tasks hpoll
        cases h
        have hresult := ((pollTasks_last hpoll).1 _ rfl).2
        rw [hresult, Option.or_none]
    | @again job job' ready r h _ ih =>
      unfold Job.pollDone at h
      split at h
      · cases h
      · rename_i tasks hpoll
        cases h
        rw [ih]
        exact (pollTasks_last hpoll).2 rfl
      · rename_i result tasks hpoll
        cases h
        obtain ⟨hnil, -⟩ := (pollTasks_last hpoll).1 none rfl
        rw [hnil] at ih
        cases ih
  rw [hlast] at key
  exact Option.some.inj key

/-- The result of waiting for all tasks, from the back. -/
def waitResult (acc : ExecutionResult) : List (JobTask ε) → Except (Failure ε) ExecutionResult
  | [] => .ok acc
  | task :: tasks =>
    match task.result with
    | .ok r => waitResult r tasks
    | .error failure => .error failure

theorem wait_cases {event : WaitEvent ε} {waited : Waited ε}
    (h : task.wait event = some (waited, task')) :
    waited = .ended task.result ∧ task' = { task with spent := true } ∨
      (∀ r, waited ≠ .ended r) ∧ task' = task := by
  unfold JobTask.wait at h
  split_ifs at h
  split at h
  · cases h
    exact .inr ⟨nofun, rfl⟩
  · cases h
    exact .inr ⟨nofun, rfl⟩
  · cases h
    exact .inl ⟨rfl, rfl⟩

theorem waitTasks_result {acc : ExecutionResult}
    {waited : Waited ε} (h : waitTasks events acc tasks = some (waited, rest)) :
    (∀ r, waited = .ended r → r = waitResult acc tasks) ∧
      ((∀ r, waited ≠ .ended r) → rest ≠ [] ∧
        ∀ acc', waitResult acc' rest = waitResult acc tasks) := by
  induction tasks generalizing acc with
  | nil =>
    cases h
    exact ⟨fun r hr => by cases hr; rfl, fun hne => absurd rfl (hne _)⟩
  | cons task tasks ih =>
    unfold waitTasks at h
    split at h
    · cases h
    · rename_i r task' hwait
      obtain ⟨hended, hrest⟩ := ih h
      have hresult : task.result = .ok r := by
        rcases wait_cases hwait with ⟨heq, -⟩ | ⟨hne, -⟩
        · exact (Waited.ended.inj heq).symm
        · exact absurd rfl (hne _)
      have hcons : waitResult acc (task :: tasks) = waitResult r tasks := by
        simp only [waitResult, hresult]
      rw [hcons]
      exact ⟨hended, hrest⟩
    · rename_i waited' task' hok hwait
      cases h
      rcases wait_cases hwait with ⟨rfl, -⟩ | ⟨hne, rfl⟩
      · refine ⟨fun r hr => ?_, fun hne => absurd rfl (hne _)⟩
        cases hr
        cases hresult : task.result with
        | ok r =>
          rw [hresult] at hwait
          exact (hok r (by rw [hresult])).elim
        | error failure => simp only [waitResult, hresult]
      · refine ⟨fun r hr => absurd hr (hne r), fun _ => ⟨List.cons_ne_nil _ _, fun acc' => ?_⟩⟩
        cases hresult : task'.result <;> simp only [waitResult, hresult]

theorem waitReports_eq {r : Except (Failure ε) ExecutionResult}
    (h : WaitReports job r) (hne : job.tasks ≠ []) :
    r = waitResult .success job.tasks.reverse := by
  induction h with
  | ended events h => exact (waitTasks_result h).1 _ rfl
  | again events h hwaited _ ih =>
    obtain ⟨hrest, hsame⟩ := (waitTasks_result h).2 hwaited
    rw [ih (by simpa using hrest), List.reverse_reverse]
    exact hsame _

theorem waitTasks_ends (acc : ExecutionResult)
    (hspent : ∀ task ∈ tasks, task.spent = false) :
    ∃ rest, waitTasks (fun _ => .ends) acc tasks =
      some (.ended (waitResult acc tasks), rest) := by
  induction tasks generalizing acc with
  | nil => exact ⟨[], rfl⟩
  | cons task tasks ih =>
    obtain ⟨hfirst, hrest⟩ := List.forall_mem_cons.1 hspent
    have hwait : task.wait .ends = some (.ended task.result, { task with spent := true }) := by
      unfold JobTask.wait
      rw [if_neg (by simp [hfirst])]
      cases task.kind <;> rfl
    unfold waitTasks
    simp only [hwait]
    cases hresult : task.result with
    | ok r =>
      obtain ⟨rest, hwaits⟩ := ih r hrest
      refine ⟨rest, ?_⟩
      simp only [waitResult, hresult, hwaits]
    | error failure =>
      refine ⟨{ task with spent := true } :: tasks, ?_⟩
      simp only [waitResult, hresult]

theorem waitResult_eq_ok {acc r : ExecutionResult} :
    waitResult acc tasks = .ok r ↔ (∀ task ∈ tasks, ∃ r, task.result = .ok r) ∧
      (tasks.getLast?.map JobTask.result).getD (.ok acc) = .ok r := by
  induction tasks generalizing acc with
  | nil => simp [waitResult]
  | cons task tasks ih =>
    cases hresult : task.result with
    | error failure =>
      simp only [waitResult, hresult]
      refine iff_of_false nofun fun h => ?_
      obtain ⟨r', hr'⟩ := h.1 task List.mem_cons_self
      rw [hresult] at hr'
      cases hr'
    | ok r' =>
      simp only [waitResult, hresult]
      have hfirst : ∃ r, task.result = .ok r := ⟨r', hresult⟩
      rw [ih, List.forall_mem_cons, and_iff_right hfirst]
      refine and_congr_right fun _ => ?_
      cases tasks with
      | nil => simp [hresult]
      | cons next tasks =>
        rw [List.getLast?_cons_cons]
        cases hlast : (next :: tasks).getLast? with
        | none => simp at hlast
        | some last => simp

/-- **Waiting.** What waiting for a job that has not been touched reports is the result of the last
task if and only if `WaitAgrees` says so. -/
theorem waitReports_iff (hspent : ∀ task ∈ job.tasks, task.spent = false) :
    (∀ last, job.tasks.getLast? = some last → ∀ r, WaitReports job r → r = last.result) ↔
      WaitAgrees job := by
  cases htasks : job.tasks.reverse with
  | nil =>
    have hnil : job.tasks = [] := List.reverse_eq_nil_iff.1 htasks
    simp [WaitAgrees, hnil]
  | cons last rest =>
    have hlast : job.tasks.getLast? = some last := by rw [← List.head?_reverse, htasks]; rfl
    have hne : job.tasks ≠ [] := by
      intro hnil
      rw [hnil] at hlast
      cases hlast
    have hreport : WaitReports job (waitResult .success job.tasks.reverse) := by
      obtain ⟨rest, hrest⟩ := waitTasks_ends .success
        fun task (htask : task ∈ job.tasks.reverse) => hspent task (List.mem_reverse.1 htask)
      exact .ended _ hrest
    have hall : (∀ last, job.tasks.getLast? = some last → ∀ r, WaitReports job r →
        r = last.result) ↔ waitResult .success job.tasks.reverse = last.result := by
      constructor
      · exact fun h => h last hlast _ hreport
      · intro h last' hlast' r hr
        obtain rfl := Option.some.inj (hlast.symm.trans hlast')
        rw [waitReports_eq hr hne, h]
    rw [hall]
    obtain ⟨first, hfirst⟩ := Option.ne_none_iff_exists'.1
      (mt List.head?_eq_none_iff.1 hne)
    have hagrees : WaitAgrees job ↔ (∃ failure, last.result = .error failure) ∨
        (∀ task ∈ job.tasks, ∃ r, task.result = .ok r) ∧ first.result = last.result := by
      unfold WaitAgrees
      rw [hfirst, hlast]
      simp
    rw [hagrees]
    cases hresult : last.result with
    | error failure =>
      refine iff_of_true ?_ (.inl ⟨failure, rfl⟩)
      rw [htasks]
      simp only [waitResult, hresult]
    | ok r =>
      rw [waitResult_eq_ok, List.getLast?_reverse, hfirst]
      simp

end Results

/-! ## Tasks that have not ended -/

/-- A task whose end was not seen, and that does not panic. -/
structure JobTask.Fresh (task : JobTask ε) : Prop where
  unspent : task.spent = false
  returns : task.kind ≠ .internal .panicked

/-- No task of the job has ended unseen, and a job that is done has none. -/
structure Job.Fresh (job : Job ε) : Prop where
  tasks : ∀ task ∈ job.tasks, task.Fresh

def Job.Settled (job : Job ε) : Prop := job.state = .done → job.tasks = []

section Polling

variable (ready : Nat → Bool)

theorem poll_fresh (h : task.Fresh) (b : Bool) :
    task.poll b =
      if b then some (some task.result, { task with spent := true }) else some (none, task) := by
  unfold JobTask.poll
  rw [if_neg (by simp [h.unspent])]
  cases b with
  | false => rfl
  | true =>
    rw [if_neg (by simp), if_pos rfl]
    split
    · rename_i hkind
      exact absurd hkind h.returns
    · rfl

theorem pollTasks_fresh (h : ∀ task ∈ tasks, task.Fresh)
    (acc : Option (Except (Failure ε) ExecutionResult)) :
    (∃ r, pollTasks ready acc tasks = some (.done r, [])) ∨
      (∃ task ∈ tasks, ready task.handle = false) ∧
        ∃ rest, rest ≠ [] ∧ rest <:+ tasks ∧ pollTasks ready acc tasks = some (.pending, rest) := by
  induction tasks generalizing acc with
  | nil => exact .inl ⟨acc, rfl⟩
  | cons task tasks ih =>
    obtain ⟨htask, htasks⟩ := List.forall_mem_cons.1 h
    unfold pollTasks
    rw [poll_fresh htask]
    cases hready : ready task.handle with
    | true =>
      simp only [if_true]
      rcases ih htasks (some task.result) with hdone | ⟨⟨t, ht, hnot⟩, rest, hne, hsub, hpending⟩
      · exact .inl hdone
      · exact .inr ⟨⟨t, List.mem_cons_of_mem _ ht, hnot⟩, rest, hne,
          hsub.trans (List.suffix_cons _ _), hpending⟩
    | false =>
      exact .inr ⟨⟨task, List.mem_cons_self, hready⟩, task :: tasks, List.cons_ne_nil _ _,
        List.suffix_refl _, rfl⟩

theorem pollDone_fresh (hfresh : job.Fresh) (hsettled : job.Settled) :
    ∃ r job', job.pollDone ready = some (r, job') ∧ job'.Fresh ∧ job'.Settled ∧
      (r.isSome = true → job'.state = .done) ∧
        ((∀ handle, ready handle = true) → job'.state = .done) := by
  unfold Job.pollDone
  rcases pollTasks_fresh ready hfresh.tasks none with
    ⟨r, hdone⟩ | ⟨⟨task, -, hnot⟩, rest, hne, hsub, hpend⟩
  · rw [hdone]
    exact ⟨r, _, rfl, ⟨nofun⟩, fun _ => rfl, fun _ => rfl, fun _ => rfl⟩
  · rw [hpend]
    refine ⟨none, _, rfl, ⟨fun t ht => hfresh.tasks t (hsub.subset ht)⟩, fun hdone => ?_, nofun,
      fun hall => ?_⟩
    · have hnil := hsettled hdone
      rw [hnil] at hsub
      exact List.suffix_nil.1 hsub
    · rw [hall] at hnot
      cases hnot

theorem pollJobs_fresh {jobs : List (Job ε)} (h : ∀ job ∈ jobs, job.Fresh ∧ job.Settled) :
    ∃ removed kept, pollJobs ready jobs = some (removed, kept) ∧
      (∀ job ∈ kept, job.Fresh ∧ job.Settled) ∧ (∀ r ∈ removed, r.1.state = .done) ∧
        ((∀ handle, ready handle = true) → kept = []) := by
  induction jobs with
  | nil => exact ⟨[], [], rfl, nofun, nofun, fun _ => rfl⟩
  | cons job jobs ih =>
    obtain ⟨⟨hfresh, hsettled⟩, hjobs⟩ := List.forall_mem_cons.1 h
    obtain ⟨r, job', hpoll, hfresh', hsettled', hsome, hall⟩ :=
      pollDone_fresh ready hfresh hsettled
    obtain ⟨removed, kept, hrest, hkept, hremoved, hempty⟩ := ih hjobs
    unfold pollJobs
    simp only [hpoll, hrest, Option.map_some]
    cases r with
    | some result =>
      exact ⟨_, _, rfl, hkept, List.forall_mem_cons.2 ⟨hsome rfl, hremoved⟩, hempty⟩
    | none =>
      dsimp only
      split_ifs with hstate
      · exact ⟨_, _, rfl, hkept, List.forall_mem_cons.2 ⟨hstate, hremoved⟩, hempty⟩
      · exact ⟨_, _, rfl, List.forall_mem_cons.2 ⟨⟨hfresh', hsettled'⟩, hkept⟩, hremoved,
          fun hready => absurd (hall hready) hstate⟩

theorem fresh_of_pollTasks {acc r : Option (Except (Failure ε) ExecutionResult)}
    (h : pollTasks ready acc tasks = some (.done r, rest)) : ∀ task ∈ tasks, task.Fresh := by
  induction tasks generalizing acc with
  | nil => nofun
  | cons task tasks ih =>
    unfold pollTasks at h
    split at h
    · cases h
    · rename_i result task' hpoll
      refine List.forall_mem_cons.2 ⟨?_, ih h⟩
      unfold JobTask.poll at hpoll
      split_ifs at hpoll with hspent
      · cases hpoll
      · split at hpoll
        · cases hpoll
        · rename_i hkind
          exact ⟨by simpa using hspent, hkind⟩
    · cases h

theorem fresh_of_pollJobs {jobs : List (Job ε)} (hsettled : ∀ job ∈ jobs, job.Settled)
    {removed : List (Job ε × Except (Failure ε) ExecutionResult)}
    (h : pollJobs ready jobs = some (removed, [])) : ∀ job ∈ jobs, job.Fresh := by
  induction jobs generalizing removed with
  | nil => nofun
  | cons job jobs ih =>
    obtain ⟨hjob, hjobs⟩ := List.forall_mem_cons.1 hsettled
    have hdone : ∀ {r : Option (Except (Failure ε) ExecutionResult)} {job' : Job ε},
        job.pollDone ready = some (r, job') → (r.isSome = true ∨ job'.state = .done) →
          job.Fresh := by
      intro r job' hpoll hremoved
      unfold Job.pollDone at hpoll
      split at hpoll
      · cases hpoll
      · cases hpoll
        rcases hremoved with hsome | hstate
        · cases hsome
        · have hnil : job.tasks = [] := hjob hstate
          exact ⟨by rw [hnil]; nofun⟩
      · rename_i hpolled
        exact ⟨fresh_of_pollTasks ready hpolled⟩
    unfold pollJobs at h
    split at h
    · cases h
    · rename_i hpoll
      obtain ⟨⟨removed', kept⟩, hrest, heq⟩ := Option.map_eq_some_iff.1 h
      cases heq
      exact List.forall_mem_cons.2 ⟨hdone hpoll (.inl rfl), ih hjobs hrest⟩
    · rename_i hpoll
      split_ifs at h with hstate
      · obtain ⟨⟨removed', kept⟩, hrest, heq⟩ := Option.map_eq_some_iff.1 h
        cases heq
        exact List.forall_mem_cons.2 ⟨hdone hpoll (.inr hstate), ih hjobs hrest⟩
      · obtain ⟨⟨removed', kept⟩, hrest, heq⟩ := Option.map_eq_some_iff.1 h
        cases heq

end Polling

section Waiting

variable (events : Nat → WaitEvent ε)

def obstacleOf (events : Nat → WaitEvent ε) (tasks : List (JobTask ε)) : Option (Waited ε) :=
  (tasks.map (JobTask.outcome events)).find? fun waited => !waited.isOk

theorem wait_fresh (h : task.spent = false) :
    ∃ task', task.wait (events task.handle) = some (task.outcome events, task') ∧
      ((∀ r, task.outcome events = .ended r → task' = { task with spent := true }) ∧
        ((∀ r, task.outcome events ≠ .ended r) → task' = task)) := by
  unfold JobTask.wait JobTask.outcome
  rw [if_neg (by simp [h])]
  cases task.kind with
  | internal join => exact ⟨_, rfl, fun _ _ => rfl, fun hne => absurd rfl (hne _)⟩
  | external exit =>
    cases events task.handle with
    | ends => exact ⟨_, rfl, fun _ _ => rfl, fun hne => absurd rfl (hne _)⟩
    | stops => exact ⟨task, rfl, nofun, fun _ => rfl⟩
    | fails e => exact ⟨task, rfl, nofun, fun _ => rfl⟩

theorem waitTasks_fresh (h : ∀ task ∈ tasks, task.Fresh)
    (acc : ExecutionResult) :
    ∃ waited rest, waitTasks events acc tasks = some (waited, rest) ∧
      (obstacleOf events tasks = none ∧ (∃ r, waited = .ended (.ok r)) ∧ rest = [] ∨
        obstacleOf events tasks = some waited ∧ waited.isOk = false ∧ rest ≠ [] ∧
          ((∀ task ∈ rest, task.Fresh) ↔ waited.isFailure = false)) := by
  induction tasks generalizing acc with
  | nil => exact ⟨_, _, rfl, .inl ⟨rfl, ⟨acc, rfl⟩, rfl⟩⟩
  | cons task tasks ih =>
    obtain ⟨htask, htasks⟩ := List.forall_mem_cons.1 h
    obtain ⟨task', hwait, hended, hother⟩ := wait_fresh events htask.unspent
    unfold waitTasks
    simp only [hwait]
    cases houtcome : task.outcome events with
    | ended result =>
      cases result with
      | ok r =>
        obtain ⟨waited, rest, hrest, hcases⟩ := ih htasks r
        have hskip : obstacleOf events (task :: tasks) = obstacleOf events tasks := by
          unfold obstacleOf
          rw [List.map_cons, List.find?_cons_of_neg (by rw [houtcome]; simp [Waited.isOk])]
        rw [hskip]
        exact ⟨waited, rest, hrest, hcases⟩
      | error failure =>
        refine ⟨_, _, rfl, .inr ⟨?_, rfl, List.cons_ne_nil _ _, ?_⟩⟩
        · unfold obstacleOf
          rw [List.map_cons, List.find?_cons_of_pos (by rw [houtcome]; rfl), houtcome]
        · refine iff_of_false (fun hall => ?_) nofun
          have hspent := (hall task' List.mem_cons_self).unspent
          rw [hended _ houtcome] at hspent
          cases hspent
    | stopped =>
      refine ⟨_, _, rfl, .inr ⟨?_, rfl, List.cons_ne_nil _ _, ?_⟩⟩
      · unfold obstacleOf
        rw [List.map_cons, List.find?_cons_of_pos (by rw [houtcome]; rfl), houtcome]
      · rw [hother (by rw [houtcome]; nofun)]
        exact iff_of_true h rfl
    | interrupted e =>
      refine ⟨_, _, rfl, .inr ⟨?_, rfl, List.cons_ne_nil _ _, ?_⟩⟩
      · unfold obstacleOf
        rw [List.map_cons, List.find?_cons_of_pos (by rw [houtcome]; rfl), houtcome]
      · rw [hother (by rw [houtcome]; nofun)]
        exact iff_of_true h rfl

/-- **Waiting for a fresh job.** A task that has ended is left only if it failed. -/
theorem jobWait_fresh (hfresh : job.Fresh) (hsettled : job.Settled) :
    ∃ r job', job.wait events = some (r, job') ∧ job'.Settled ∧
      (job'.Fresh ↔ (job.obstacle events).any Waited.isFailure = false) ∧
        ((∃ result, r = .ok result) ↔ (job.obstacle events).all Waited.isStopped = true) := by
  have hreverse : ∀ task ∈ job.tasks.reverse, task.Fresh :=
    fun task htask => hfresh.tasks task (List.mem_reverse.1 htask)
  obtain ⟨waited, rest, hwait, hcases⟩ := waitTasks_fresh events hreverse .success
  have hobstacle : job.obstacle events = obstacleOf events job.tasks.reverse := rfl
  have hiff : ∀ state, (⟨rest.reverse, job.annotation, job.id, state⟩ : Job ε).Fresh ↔
      ∀ task ∈ rest, task.Fresh :=
    fun state => ⟨fun h task htask => h.tasks task (List.mem_reverse.2 htask),
      fun h => ⟨fun task htask => h task (List.mem_reverse.1 htask)⟩⟩
  have hnotdone : rest ≠ [] → job.state ≠ .done := by
    intro hne hdone
    have hnil : job.tasks = [] := hsettled hdone
    rw [hnil] at hwait
    cases hwait
    exact hne rfl
  unfold Job.wait
  rw [hobstacle]
  rcases hcases with ⟨hnone, ⟨r, rfl⟩, rfl⟩ | ⟨hsome, hok, hne, hrest⟩
  · rw [hwait, hnone]
    refine ⟨_, _, rfl, fun _ => rfl, ?_, ?_⟩
    · exact iff_of_true ⟨nofun⟩ rfl
    · exact iff_of_true ⟨r, rfl⟩ rfl
  · rw [hsome]
    cases waited with
    | ended result =>
      cases result with
      | ok r => cases hok
      | error failure =>
        rw [hwait]
        refine ⟨_, _, rfl, fun hdone => absurd hdone (hnotdone hne), (hiff _).trans hrest, ?_⟩
        exact iff_of_false nofun nofun
    | stopped =>
      rw [hwait]
      refine ⟨_, _, rfl, nofun, (hiff _).trans hrest, ?_⟩
      exact iff_of_true ⟨_, rfl⟩ rfl
    | interrupted e =>
      rw [hwait]
      refine ⟨_, _, rfl, fun hdone => absurd hdone (hnotdone hne), (hiff _).trans hrest, ?_⟩
      exact iff_of_false nofun nofun

end Waiting

/-! ## Tables -/

def Settled (jobs : List (Job ε)) : Prop := ∀ job ∈ jobs, job.Settled

def Fresh (jobs : List (Job ε)) : Prop := ∀ job ∈ jobs, job.Fresh

section Tables

variable (events : Nat → WaitEvent ε) {jobs : List (Job ε)}

theorem waitJobs_fresh (hfresh : Fresh jobs) (hsettled : Settled jobs) :
    ∃ failure kept, waitJobs events jobs = some (failure, kept) ∧ Settled kept ∧
      (Fresh kept ↔ ((jobs.filterMap (Job.obstacle events)).find? fun waited =>
        !waited.isStopped).any Waited.isFailure = false) := by
  induction jobs with
  | nil => exact ⟨none, [], rfl, nofun, iff_of_true nofun rfl⟩
  | cons job jobs ih =>
    obtain ⟨hjob, hjobs⟩ := List.forall_mem_cons.1 hfresh
    obtain ⟨hset, hsets⟩ := List.forall_mem_cons.1 hsettled
    obtain ⟨r, job', hwait, hset', hfresh', hok⟩ := jobWait_fresh events hjob hset
    obtain ⟨failure, kept, hrest, hkept, hiff⟩ := ih hjobs hsets
    unfold waitJobs
    simp only [hwait]
    cases r with
    | error f =>
      refine ⟨_, _, rfl, List.forall_mem_cons.2 ⟨hset', hsets⟩, ?_⟩
      have hstopped : ¬(job.obstacle events).all Waited.isStopped = true := fun h => by
        obtain ⟨result, hresult⟩ := hok.2 h
        cases hresult
      cases hobstacle : job.obstacle events with
      | none => exact absurd (by rw [hobstacle]; rfl) hstopped
      | some waited =>
        rw [hobstacle] at hstopped hfresh'
        have hfind : ((job :: jobs).filterMap (Job.obstacle events)).find?
            (fun waited => !waited.isStopped) = some waited := by
          rw [List.filterMap_cons_some hobstacle, List.find?_cons_of_pos (by simpa using hstopped)]
        rw [hfind, ← hfresh']
        exact ⟨fun h => h job' List.mem_cons_self, fun h => List.forall_mem_cons.2 ⟨h, hjobs⟩⟩
    | ok result =>
      rw [hrest]
      refine ⟨_, _, rfl, List.forall_mem_cons.2 ⟨hset', hkept⟩, ?_⟩
      have hstopped := hok.1 ⟨result, rfl⟩
      have hfind : ((job :: jobs).filterMap (Job.obstacle events)).find?
          (fun waited => !waited.isStopped) =
            (jobs.filterMap (Job.obstacle events)).find? fun waited => !waited.isStopped := by
        cases hobstacle : job.obstacle events with
        | none => rw [List.filterMap_cons_none hobstacle]
        | some waited =>
          rw [hobstacle] at hstopped
          rw [List.filterMap_cons_some hobstacle,
            List.find?_cons_of_neg (by simpa using hstopped)]
      have hfreshjob : job'.Fresh := by
        refine hfresh'.2 ?_
        cases hobstacle : job.obstacle events with
        | none => rfl
        | some waited =>
          rw [hobstacle] at hstopped
          cases waited with
          | stopped => rfl
          | ended result => cases hstopped
          | interrupted e => cases hstopped
      rw [hfind, ← hiff]
      exact ⟨fun h => fun j hj => h j (List.mem_cons_of_mem _ hj),
        fun h => List.forall_mem_cons.2 ⟨hfreshjob, h⟩⟩

theorem waitNamed_fresh (hfresh : Fresh jobs) (hsettled : Settled jobs) (spec : JobSpec) :
    ∃ r kept, waitNamed events spec jobs = some (r, kept) ∧ Settled kept ∧
      (Fresh kept ↔ ∀ job, jobs.find? spec.names = some job →
        (job.obstacle events).any Waited.isFailure = false) := by
  induction jobs with
  | nil => exact ⟨none, [], rfl, nofun, iff_of_true nofun nofun⟩
  | cons job jobs ih =>
    obtain ⟨hjob, hjobs⟩ := List.forall_mem_cons.1 hfresh
    obtain ⟨hset, hsets⟩ := List.forall_mem_cons.1 hsettled
    unfold waitNamed
    by_cases hnames : spec.names job = true
    · obtain ⟨r, job', hwait, hset', hfresh', -⟩ := jobWait_fresh events hjob hset
      rw [if_pos hnames, hwait]
      refine ⟨_, _, rfl, List.forall_mem_cons.2 ⟨hset', hsets⟩, ?_⟩
      rw [List.find?_cons_of_pos hnames]
      constructor
      · rintro h j hj
        cases hj
        exact hfresh'.1 (h job' List.mem_cons_self)
      · exact fun h => List.forall_mem_cons.2 ⟨hfresh'.2 (h job rfl), hjobs⟩
    · obtain ⟨r, kept, hrest, hkept, hiff⟩ := ih hjobs hsets
      rw [if_neg hnames, hrest]
      refine ⟨_, _, rfl, List.forall_mem_cons.2 ⟨hset, hkept⟩, ?_⟩
      rw [List.find?_cons_of_neg hnames, ← hiff]
      exact ⟨fun h j hj => h j (List.mem_cons_of_mem _ hj),
        fun h => List.forall_mem_cons.2 ⟨hjob, h⟩⟩

theorem mem_demoteCurrent (h : job ∈ demoteCurrent jobs) :
    ∃ job' ∈ jobs, job.tasks = job'.tasks ∧ job.state = job'.state := by
  induction jobs with
  | nil => cases h
  | cons first jobs ih =>
    unfold demoteCurrent at h
    split_ifs at h
    · rcases List.mem_cons.1 h with rfl | hmem
      · exact ⟨first, List.mem_cons_self, rfl, rfl⟩
      · exact ⟨job, List.mem_cons_of_mem _ hmem, rfl, rfl⟩
    · rcases List.mem_cons.1 h with rfl | hmem
      · exact ⟨job, List.mem_cons_self, rfl, rfl⟩
      · obtain ⟨job', hmem', hsame⟩ := ih hmem
        exact ⟨job', List.mem_cons_of_mem _ hmem', hsame⟩

/-- **Step.** From a fresh table an event leads to a table, which is fresh if and only if the event
spares the tasks. -/
theorem fresh_step {m : JobManager ε} (hfresh : Fresh m.jobs) (hsettled : Settled m.jobs)
    (event : JobEvent ε) :
    ∃ m', m.step event = some m' ∧ Settled m'.jobs ∧ (Fresh m'.jobs ↔ SparesTasks m event) := by
  cases event with
  | add tasks stopped =>
    have hdemoted : ∀ job ∈ demoteCurrent m.jobs, job.Fresh ∧ job.Settled := by
      intro job hjob
      obtain ⟨job', hmem, htasks, hstate⟩ := mem_demoteCurrent hjob
      refine ⟨⟨htasks ▸ (hfresh job' hmem).tasks⟩, fun hdone => ?_⟩
      rw [htasks]
      exact hsettled job' hmem (hstate ▸ hdone)
    have hnew : ∀ id, (⟨(Job.new tasks stopped).tasks, .current, id,
        (Job.new tasks stopped).state⟩ : Job ε).Settled := fun id hdone => by
      cases stopped <;> cases hdone
    refine ⟨_, rfl, fun job hjob => ?_, ?_⟩
    · rcases List.mem_append.1 hjob with hold | hold
      · exact (hdemoted job hold).2
      · rw [List.mem_singleton.1 hold]
        exact hnew _
    · constructor
      · intro h task htask
        have hjob := h _ (List.mem_append_right _ (List.mem_singleton_self _))
        exact (hjob.tasks ⟨task.1, task.2, false⟩ (List.mem_map.2 ⟨task, htask, rfl⟩)).returns
      · intro h job hjob
        rcases List.mem_append.1 hjob with hold | hold
        · exact (hdemoted job hold).1
        · rw [List.mem_singleton.1 hold]
          refine ⟨fun task htask => ?_⟩
          obtain ⟨t, ht, rfl⟩ := List.mem_map.1 htask
          exact ⟨rfl, h t ht⟩
  | poll ready =>
    obtain ⟨removed, kept, hpoll, hkept, -, -⟩ := pollJobs_fresh ready
      fun job hjob => ⟨hfresh job hjob, hsettled job hjob⟩
    refine ⟨⟨kept⟩, ?_, fun job hjob => (hkept job hjob).2,
      iff_of_true (fun job hjob => (hkept job hjob).1) trivial⟩
    show (m.poll ready).map Prod.snd = _
    rw [JobManager.poll, hpoll]
    rfl
  | waitAll events =>
    obtain ⟨failure, kept, hwait, hkept, hiff⟩ := waitJobs_fresh events hfresh hsettled
    have hstep : m.step (.waitAll events) = (m.waitAll events).map Prod.snd := rfl
    rw [hstep, JobManager.waitAll, hwait]
    cases failure with
    | some failure => exact ⟨_, rfl, hkept, hiff⟩
    | none =>
      refine ⟨_, rfl, fun job hjob => hkept job (List.mem_of_mem_filter hjob), ?_⟩
      refine Iff.trans ⟨fun h job hjob => ?_, fun h job hjob =>
        h job (List.mem_of_mem_filter hjob)⟩ hiff
      by_cases hnil : job.tasks = []
      · exact ⟨by rw [hnil]; nofun⟩
      · exact h job (List.mem_filter.2 ⟨hjob, by simpa using hnil⟩)
  | wait spec events =>
    have hstep : m.step (.wait spec events) = m.waitJob events spec := rfl
    rw [hstep, JobManager.waitJob]
    cases hparse : JobSpec.parse spec with
    | none =>
      refine ⟨m, rfl, hsettled, iff_of_true hfresh fun s job hs => ?_⟩
      rw [hparse] at hs
      cases hs
    | some s =>
      obtain ⟨r, kept, hwait, hkept, hiff⟩ := waitNamed_fresh events hfresh hsettled s
      refine ⟨⟨kept⟩, by simp only [hwait, Option.map_some], hkept, hiff.trans ?_⟩
      constructor
      · intro h s' job hs' hfind
        obtain rfl := Option.some.inj (hparse.symm.trans hs')
        exact h job hfind
      · exact fun h job hfind => h s job hparse hfind

end Tables

/-! ## Runs -/

theorem swept_iff {m : JobManager ε} (hsettled : Settled m.jobs) :
    (∃ removed, m.poll (fun _ => true) = some (removed, .empty) ∧
      ∀ r ∈ removed, r.1.state = .done) ↔ Fresh m.jobs := by
  constructor
  · rintro ⟨removed, hpoll, -⟩
    obtain ⟨⟨removed', kept⟩, hjobs, heq⟩ := Option.map_eq_some_iff.1 hpoll
    have hkept : kept = [] := congrArg (fun r => r.2.jobs) heq
    rw [hkept] at hjobs
    exact fresh_of_pollJobs _ hsettled hjobs
  · intro hfresh
    obtain ⟨removed, kept, hpoll, -, hdone, hempty⟩ := pollJobs_fresh (fun _ => true)
      fun job hjob => ⟨hfresh job hjob, hsettled job hjob⟩
    refine ⟨removed, ?_, hdone⟩
    rw [JobManager.poll, hpoll, hempty fun _ => rfl]
    rfl

theorem fresh_run {events : List (JobEvent ε)}
    (h : ∀ before event after m, events = before ++ event :: after →
      JobManager.run before = some m → SparesTasks m event) :
    ∃ m, JobManager.run events = some m ∧ Fresh m.jobs ∧ Settled m.jobs := by
  induction events using List.reverseRecOn with
  | nil => exact ⟨.empty, rfl, nofun, nofun⟩
  | append_singleton events event ih =>
    obtain ⟨m, hrun, hfresh, hsettled⟩ := ih fun before event' after m hevents hbefore =>
      h before event' (after ++ [event]) m (by rw [hevents]; simp) hbefore
    obtain ⟨m', hstep, hsettled', hiff⟩ := fresh_step hfresh hsettled event
    refine ⟨m', ?_, hiff.2 (h events event [] m rfl hrun), hsettled'⟩
    rw [JobManager.run_concat, hrun]
    exact hstep

/-- **Jobs.** A run is as it should be if and only if no task is added that panics, none that ends
in an error is waited for, and the waits for the jobs that are added agree with their polls. -/
theorem jobsRun_iff (events : List (JobEvent ε)) :
    JobsRun events ↔
      (∀ before event after m, events = before ++ event :: after →
        JobManager.run before = some m → SparesTasks m event) ∧
      ∀ tasks stopped, .add tasks stopped ∈ events → WaitAgrees (Job.new tasks stopped) := by
  have hreports : ∀ tasks stopped, ReportsLast (Job.new tasks stopped : Job ε) ↔
      WaitAgrees (Job.new tasks stopped) := by
    intro tasks stopped
    have hspent : ∀ task ∈ (Job.new tasks stopped : Job ε).tasks, task.spent = false := by
      intro task htask
      obtain ⟨t, -, rfl⟩ := List.mem_map.1 htask
      rfl
    rw [← waitReports_iff hspent]
    exact ⟨ReportsLast.wait, fun h => ⟨h, fun last hlast r hr => pollReports_last hr hlast⟩⟩
  constructor
  · intro h
    refine ⟨?_, fun tasks stopped hadd => (hreports tasks stopped).1 (h.reports tasks stopped hadd)⟩
    have hspares : ∀ before : List (JobEvent ε), ∀ event after m,
        events = before ++ event :: after → JobManager.run before = some m →
          SparesTasks m event := by
      intro before
      induction hn : before.length using Nat.strong_induction_on generalizing before with
      | _ n ih =>
        intro event after m hevents hrun
        have hearlier : ∀ before' event' after' m', before = before' ++ event' :: after' →
            JobManager.run before' = some m' → SparesTasks m' event' :=
          fun before' event' after' m' hbefore hrun' =>
            ih before'.length (by rw [← hn, hbefore]; simp) before' rfl event'
              (after' ++ event :: after) m' (by rw [hevents, hbefore]; simp) hrun'
        obtain ⟨m₀, hrun₀, hfresh, hsettled⟩ := fresh_run hearlier
        obtain rfl := Option.some.inj (hrun₀.symm.trans hrun)
        obtain ⟨m', hstep, hsettled', hiff⟩ := fresh_step hfresh hsettled event
        have hnext : JobManager.run (before ++ [event]) = some m' := by
          rw [JobManager.run_concat, hrun]
          exact hstep
        exact hiff.1 ((swept_iff hsettled').1
          (h.swept (before ++ [event]) after m' (by rw [hevents]; simp) hnext))
    exact hspares
  · rintro ⟨hspares, hagrees⟩
    have hprefix : ∀ before after, events = before ++ after →
        ∃ m, JobManager.run before = some m ∧ Fresh m.jobs ∧ Settled m.jobs :=
      fun before after hevents => fresh_run fun before' event after' m hbefore hrun =>
        hspares before' event (after' ++ after) m (by rw [hevents, hbefore]; simp) hrun
    constructor
    · intro before after hevents
      obtain ⟨m, hrun, -⟩ := hprefix before after hevents
      rw [hrun]
      rfl
    · intro before after m hevents hrun
      obtain ⟨m', hrun', hfresh, hsettled⟩ := hprefix before after hevents
      obtain rfl := Option.some.inj (hrun'.symm.trans hrun)
      exact (swept_iff hsettled).2 hfresh
    · exact fun tasks stopped hadd => (hreports tasks stopped).2 (hagrees tasks stopped hadd)

/-- A task ends in an error, which a wait reports. The poll after it touches the handle again. -/
theorem not_jobsRun_error : ¬JobsRun (ε := Unit)
    [.add [(0, .internal (.returned (.error ())))] false, .wait ['%', '1'] fun _ => .ends,
      .poll fun _ => true] := by
  intro h
  have hsome := h.single [.add [(0, .internal (.returned (.error ())))] false,
    .wait ['%', '1'] fun _ => .ends, .poll fun _ => true] [] rfl
  cases hsome

end Seahaven.Shell.Jobs
