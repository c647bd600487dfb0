import Seahaven.Shell.LoopControl
import Seahaven.Shell.Variables

/-!
# Jobs

A job is a queue of tasks. A task is waited for, or polled; once it has ended, its handle must not
be touched again, or the shell panics.

1. `JobTask`: a task with how it will end, and whether that was seen already.
2. `Job.wait` takes the tasks from the back, `Job.pollDone` from the front.
3. `JobManager`: the table of jobs with `addAsCurrent`, `poll`, `waitAll` and `resolveJobSpec`.
4. `JobEvent`: what happens to a table. What the tasks do meanwhile is part of the event.
-/

namespace Seahaven.Shell.Jobs

open Interp

variable {ε : Type}

/-! ## Tasks -/

/-- How an asynchronous task ends. -/
inductive Join (ε : Type)
  | returned (result : Except ε ExecutionResult)
  | panicked

inductive TaskKind (ε : Type)
  | external (exit : Except ε ExecutionResult)
  | internal (join : Join ε)

/-- A task, how it will end, and whether its end was awaited or polled already. -/
structure JobTask (ε : Type) where
  handle : Nat
  kind : TaskKind ε
  spent : Bool

/-- Why a task has no result. -/
inductive Failure (ε : Type)
  | error (e : ε)
  | joinError

/-- What comes first while a process is waited for. -/
inductive WaitEvent (ε : Type)
  | ends
  | stops
  | fails (e : ε)

/-- `Result<JobTaskWaitResult, Error>`: the end of the task, or an error of waiting. -/
inductive Waited (ε : Type)
  | ended (result : Except (Failure ε) ExecutionResult)
  | stopped
  | interrupted (e : ε)

namespace JobTask

def result (task : JobTask ε) : Except (Failure ε) ExecutionResult :=
  match task.kind with
  | .external exit => exit.mapError .error
  | .internal (.returned result) => result.mapError .error
  | .internal .panicked => .error .joinError

/-- `JobTask::wait`. There is no result if it panics. -/
def wait (event : WaitEvent ε) (task : JobTask ε) : Option (Waited ε × JobTask ε) :=
  if task.spent then none
  else
    match task.kind, event with
    | .external _, .stops => some (.stopped, task)
    | .external _, .fails e => some (.interrupted e, task)
    | _, _ => some (.ended task.result, { task with spent := true })

/-- `JobTask::poll`. A panic of the task is no result. -/
def poll (ready : Bool) (task : JobTask ε) :
    Option (Option (Except (Failure ε) ExecutionResult) × JobTask ε) :=
  if task.spent then none
  else if !ready then some (none, task)
  else
    match task.kind with
    | .internal .panicked => some (none, { task with spent := true })
    | _ => some (some task.result, { task with spent := true })

end JobTask

/-! ## Jobs -/

inductive JobState
  | unknown
  | running
  | stopped
  | done
  deriving DecidableEq

inductive JobAnnotation
  | none
  | current
  | previous
  deriving DecidableEq

structure Job (ε : Type) where
  tasks : List (JobTask ε)
  annotation : JobAnnotation
  id : Nat
  state : JobState

/-- `ExecutionResult::stopped`. -/
def stoppedResult : ExecutionResult := ⟨.normal, 148⟩

/-- How `poll_done` ends. -/
inductive Polled (ε : Type)
  | done (result : Option (Except (Failure ε) ExecutionResult))
  | pending

/-- The loop of `poll_done`, from the front. -/
def pollTasks (ready : Nat → Bool) (result : Option (Except (Failure ε) ExecutionResult)) :
    List (JobTask ε) → Option (Polled ε × List (JobTask ε))
  | [] => some (.done result, [])
  | task :: tasks =>
    match task.poll (ready task.handle) with
    | none => none
    | some (some r, _) => pollTasks ready (some r) tasks
    | some (none, task) => some (.pending, task :: tasks)

/-- The loop of `wait`, over the tasks from the back. -/
def waitTasks (events : Nat → WaitEvent ε) (result : ExecutionResult) :
    List (JobTask ε) → Option (Waited ε × List (JobTask ε))
  | [] => some (.ended (.ok result), [])
  | task :: tasks =>
    match task.wait (events task.handle) with
    | none => none
    | some (.ended (.ok r), _) => waitTasks events r tasks
    | some (waited, task) => some (waited, task :: tasks)

namespace Job

/-- `Job::poll_done`. -/
def pollDone (ready : Nat → Bool) (job : Job ε) :
    Option (Option (Except (Failure ε) ExecutionResult) × Job ε) :=
  match pollTasks ready none job.tasks with
  | none => none
  | some (.pending, tasks) => some (none, { job with tasks })
  | some (.done result, tasks) => some (result, { job with tasks, state := .done })

/-- `Job::wait`. -/
def wait (events : Nat → WaitEvent ε) (job : Job ε) :
    Option (Except (Failure ε) ExecutionResult × Job ε) :=
  match waitTasks events .success job.tasks.reverse with
  | none => none
  | some (.ended (.ok result), tasks) =>
    some (.ok result, { job with tasks := tasks.reverse, state := .done })
  | some (.ended (.error failure), tasks) =>
    some (.error failure, { job with tasks := tasks.reverse })
  | some (.interrupted e, tasks) => some (.error (.error e), { job with tasks := tasks.reverse })
  | some (.stopped, tasks) =>
    some (.ok stoppedResult, { job with tasks := tasks.reverse, state := .stopped })

end Job

/-! ## The table -/

structure JobManager (ε : Type) where
  jobs : List (Job ε)

def demoteCurrent : List (Job ε) → List (Job ε)
  | [] => []
  | job :: jobs =>
    if job.annotation = .current then { job with annotation := .previous } :: jobs
    else job :: demoteCurrent jobs

/-- The loop of `next_id`. -/
def nextIdFrom (ids : List Nat) (id : Nat) : Nat → Nat
  | 0 => id
  | n + 1 => if id ∈ ids then nextIdFrom ids (id + 1) n else id

/-- `next_id`: one of the first numbers is not in use. -/
def nextId (jobs : List (Job ε)) : Nat := nextIdFrom (jobs.map Job.id) 1 jobs.length

/-- The loop of `JobManager::poll`, with the jobs it removes. -/
def pollJobs (ready : Nat → Bool) :
    List (Job ε) → Option (List (Job ε × Except (Failure ε) ExecutionResult) × List (Job ε))
  | [] => some ([], [])
  | job :: jobs =>
    match job.pollDone ready with
    | none => none
    | some (some result, job) =>
      (pollJobs ready jobs).map fun r => ((job, result) :: r.1, r.2)
    | some (none, job) =>
      if job.state = .done then
        (pollJobs ready jobs).map fun r => ((job, .ok .success) :: r.1, r.2)
      else (pollJobs ready jobs).map fun r => (r.1, job :: r.2)

/-- The loop of `wait_all`, with the failure that ends it. -/
def waitJobs (events : Nat → WaitEvent ε) :
    List (Job ε) → Option (Option (Failure ε) × List (Job ε))
  | [] => some (none, [])
  | job :: jobs =>
    match job.wait events with
    | none => none
    | some (.error failure, job) => some (some failure, job :: jobs)
    | some (.ok _, job) => (waitJobs events jobs).map fun r => (r.1, job :: r.2)

/-- What a job spec names. -/
inductive JobSpec
  | current
  | previous
  | id (n : Nat)

/-- The specs that `resolve_job_spec` knows. A numeric character that is no digit is not parsed. -/
def JobSpec.parse : List Char → Option JobSpec
  | '%' :: remainder =>
    if remainder = ['%'] ∨ remainder = ['+'] then some .current
    else if remainder = ['-'] then some .previous
    else if remainder.all Char.isDigit then (parseU64 remainder).map .id
    else none
  | _ => none

def JobSpec.names (spec : JobSpec) (job : Job ε) : Bool :=
  match spec with
  | .current => job.annotation = .current
  | .previous => job.annotation = .previous
  | .id n => job.id = n

/-- Waits for the first job that a spec names. -/
def waitNamed (events : Nat → WaitEvent ε) (spec : JobSpec) :
    List (Job ε) → Option (Option (Except (Failure ε) ExecutionResult) × List (Job ε))
  | [] => some (none, [])
  | job :: jobs =>
    if spec.names job then (job.wait events).map fun r => (some r.1, r.2 :: jobs)
    else (waitNamed events spec jobs).map fun r => (r.1, job :: r.2)

namespace JobManager

def empty : JobManager ε := ⟨[]⟩

def addAsCurrent (m : JobManager ε) (job : Job ε) : JobManager ε :=
  let jobs := demoteCurrent m.jobs
  ⟨jobs ++ [{ job with id := nextId jobs, annotation := .current }]⟩

def poll (ready : Nat → Bool) (m : JobManager ε) :
    Option (List (Job ε × Except (Failure ε) ExecutionResult) × JobManager ε) :=
  (pollJobs ready m.jobs).map fun r => (r.1, ⟨r.2⟩)

def sweepCompletedJobs (m : JobManager ε) : List (Job ε) × JobManager ε :=
  (m.jobs.filter fun job => job.tasks.isEmpty, ⟨m.jobs.filter fun job => !job.tasks.isEmpty⟩)

def waitAll (events : Nat → WaitEvent ε) (m : JobManager ε) :
    Option (Except (Failure ε) (List (Job ε)) × JobManager ε) :=
  match waitJobs events m.jobs with
  | none => none
  | some (some failure, jobs) => some (.error failure, ⟨jobs⟩)
  | some (none, jobs) => some (.ok (sweepCompletedJobs ⟨jobs⟩).1, (sweepCompletedJobs ⟨jobs⟩).2)

def resolveJobSpec (m : JobManager ε) (spec : List Char) : Option (Job ε) :=
  (JobSpec.parse spec).bind fun spec => m.jobs.find? spec.names

/-- `wait` with a job spec. -/
def waitJob (events : Nat → WaitEvent ε) (spec : List Char) (m : JobManager ε) :
    Option (JobManager ε) :=
  match JobSpec.parse spec with
  | none => some m
  | some spec => (waitNamed events spec m.jobs).map fun r => ⟨r.2⟩

end JobManager

/-! ## Events -/

/-- A job that is started, or was stopped: `Job::new`. -/
def Job.new (tasks : List (Nat × TaskKind ε)) (stopped : Bool) : Job ε where
  tasks := tasks.map fun task => ⟨task.1, task.2, false⟩
  annotation := .none
  id := 0
  state := if stopped then .stopped else .running

/-- What happens to a table, and what the tasks do meanwhile. -/
inductive JobEvent (ε : Type)
  | add (tasks : List (Nat × TaskKind ε)) (stopped : Bool)
  | poll (ready : Nat → Bool)
  | waitAll (events : Nat → WaitEvent ε)
  | wait (spec : List Char) (events : Nat → WaitEvent ε)

namespace JobManager

def step (m : JobManager ε) : JobEvent ε → Option (JobManager ε)
  | .add tasks stopped => some (m.addAsCurrent (Job.new tasks stopped))
  | .poll ready => (m.poll ready).map Prod.snd
  | .waitAll events => (m.waitAll events).map Prod.snd
  | .wait spec events => m.waitJob events spec

def run (events : List (JobEvent ε)) : Option (JobManager ε) := events.foldlM step empty

theorem run_concat (events : List (JobEvent ε)) (event : JobEvent ε) :
    run (events ++ [event]) = (run events).bind fun m => m.step event := by
  unfold run
  rw [List.foldlM_append]
  cases events.foldlM step (empty : JobManager ε) with
  | none => rfl
  | some m =>
    show (m.step event).bind some = m.step event
    cases m.step event <;> rfl

end JobManager

end Seahaven.Shell.Jobs
