import Mathlib.Data.List.Forall2
import Mathlib.Data.List.Nodup
import Seahaven.Shell.LoopControl

/-!
# The status of a pipeline

`Pipeline::execute` starts the stages in one loop (`spawn_pipeline_processes`) and waits for them in
another one (`wait_for_pipeline_processes_and_update_status`), which writes down their statuses. The
runs log which stages are started and which are waited for.

1. `Stage.executeInPipeline` is how the kinds of command start, with what they do about errors.
2. `Complete` says that every stage is started and waited for once, and that the statuses and the
   status of the pipeline are those of the stages.
3. A pipeline whose stages do not stop is complete if and only if no stage ends in an error that is
   left to the pipeline, the system gives the pipes and the terminal, and the handler of the `ERR`
   trap, where it is run, keeps the statuses (`complete_iff`).
-/

namespace Seahaven.Shell.PipelineRun

open Interp Op

/-! ## The shell -/

structure Options where
  doNotExecuteCommands : Bool
  returnLastFailureFromPipeline : Bool
  runLastPipelineCmdInCurrentShell : Bool
  enableJobControl : Bool
  interactive : Bool
  exitOnNonzeroCommandExit : Bool

/-- The fields of the shell that a pipeline writes, its options, and the rest. -/
structure ShellState (ρ : Type) where
  lastPipelineStatuses : List UInt8
  lastExitStatus : UInt8
  options : Options
  rest : ρ

variable {ρ ε : Type}

namespace ShellState

variable (s : ShellState ρ)

def setLastExitStatus (code : UInt8) : ShellState ρ := { s with lastExitStatus := code }

def setStatuses (codes : List UInt8) : ShellState ρ := { s with lastPipelineStatuses := codes }

@[simp] theorem setLastExitStatus_statuses (code : UInt8) :
    (s.setLastExitStatus code).lastPipelineStatuses = s.lastPipelineStatuses := rfl

@[simp] theorem setLastExitStatus_options (code : UInt8) :
    (s.setLastExitStatus code).options = s.options := rfl

@[simp] theorem setStatuses_statuses (codes : List UInt8) :
    (s.setStatuses codes).lastPipelineStatuses = codes := rfl

@[simp] theorem setStatuses_options (codes : List UInt8) :
    (s.setStatuses codes).options = s.options := rfl

end ShellState

/-- What a pipeline asks of the system, and what errors are. -/
structure System (ρ ε : Type) where
  /-- Whether the pipe of this number can be made. -/
  pipe : Nat → Except ε Unit
  moveSelfToForeground : Except ε Unit
  /-- Hands the stopped stages to the job manager and says so. -/
  adopt : Op (ShellState ρ) ε Unit
  /-- Runs the handler of the `ERR` trap, if there is one. -/
  errTrap : Op (ShellState ρ) ε Unit
  /-- Writes an error of a redirection. -/
  complain : ε → Op (ShellState ρ) ε Unit
  exitCode : ε → UInt8
  isFatal : ε → Bool

/-- `Error::into_result`. -/
def System.intoResult (sys : System ρ ε) (s : ShellState ρ) (e : ε) : ExecutionResult where
  nextControlFlow := if sys.isFatal e && !s.options.interactive then .exitShell else .normal
  exitCode := sys.exitCode e

/-! ## Stages -/

inductive ProcessWaitResult
  | completed (code : UInt8)
  | stopped

/-- `ExecutionSpawnResult`: a process and a task come with how they will end. -/
inductive Spawned (ε : Type)
  | completed (result : ExecutionResult)
  | startedProcess (exit : Except ε ProcessWaitResult)
  | startedTask (join : Except ε ExecutionResult)

/-- `ExecutionWaitResult`. -/
inductive WaitResult
  | completed (result : ExecutionResult)
  | stopped

namespace Spawned

def wait : Spawned ε → Except ε WaitResult
  | completed result => .ok (.completed result)
  | startedProcess exit => do
    match ← exit with
    | .completed code => pure (.completed ⟨.normal, code⟩)
    | .stopped => pure .stopped
  | startedTask join => do
    let result ← join
    pure (.completed result)

/-- A process that is polled is not waited for. -/
def poll : Spawned ε → Except ε WaitResult
  | completed result => .ok (.completed result)
  | startedProcess _ => .ok .stopped
  | startedTask join => do
    let result ← join
    pure (.completed result)

def isProcess : Spawned ε → Bool
  | startedProcess _ => true
  | _ => false

end Spawned

/-- What a simple command comes down to when its words are expanded. -/
inductive SimpleBody (ρ ε : Type)
  | command (run : Op (ShellState ρ) ε (Spawned ε))
  | assignments (apply : Op (ShellState ρ) ε ExecutionResult)

/-- What stands in front of and behind the name of a simple command. -/
inductive Item (ρ ε : Type)
  | redirect (setUp : Op (ShellState ρ) ε Unit)
  | other (expand : Op (ShellState ρ) ε Unit)

/-- A command of a pipeline. -/
inductive Stage (ρ ε : Type)
  | simple (items : List (Item ρ ε)) (body : ShellState ρ → SimpleBody ρ ε)
  | compound (redirects : List (Op (ShellState ρ) ε Unit))
    (execute : Op (ShellState ρ) ε ExecutionResult)
  | function (define : Op (ShellState ρ) ε ExecutionResult)
  | extendedTest (redirects : List (Op (ShellState ρ) ε Unit)) (eval : Op (ShellState ρ) ε Bool)

/-- The items of a simple command, in order. A redirection that fails ends the command with a
status. -/
def setUpItems (sys : System ρ ε) :
    List (Item ρ ε) → Op (ShellState ρ) ε (Option ExecutionResult)
  | [] => pure none
  | .other expand :: items => do
    expand
    setUpItems sys items
  | .redirect setUp :: items => do
    match ← Op.attempt setUp with
    | .error e => do
      sys.complain e
      pure (some ⟨.normal, 1⟩)
    | .ok () => setUpItems sys items

def setUpRedirects : List (Op (ShellState ρ) ε Unit) → Op (ShellState ρ) ε Unit
  | [] => pure ()
  | setUp :: redirects => do
    setUp
    setUpRedirects redirects

/-- An error of `execute_command` becomes a result. -/
def SimpleBody.execute (sys : System ρ ε) :
    SimpleBody ρ ε → Op (ShellState ρ) ε (Spawned ε)
  | command run => handle (fun e => Op.read fun s => .ok (.completed (sys.intoResult s e))) run
  | assignments apply => do
    let result ← apply
    pure (.completed result)

/-- `Command::execute_in_pipeline`. -/
def Stage.spawn (sys : System ρ ε) : Stage ρ ε → Op (ShellState ρ) ε (Spawned ε)
  | simple items body => do
    match ← setUpItems sys items with
    | some result => pure (.completed result)
    | none => do
      let body ← Op.read fun s => .ok (body s)
      body.execute sys
  | compound redirects execute => do
    setUpRedirects redirects
    let result ← execute
    pure (.completed result)
  | function define => do
    let result ← define
    pure (.completed result)
  | extendedTest redirects eval => do
    setUpRedirects redirects
    let value ← eval
    pure (.completed ⟨.normal, if value then 0 else 1⟩)

def Stage.executeInPipeline (sys : System ρ ε) (stage : Stage ρ ε) :
    Op (ShellState ρ) ε (Spawned ε) := do
  let noExecute ← Op.read fun s => .ok s.options.doNotExecuteCommands
  if noExecute then pure (.completed .success) else stage.spawn sys

/-! ## Pipelines -/

structure Pipeline (ρ ε : Type) where
  bang : Bool
  seq : List (Stage ρ ε)

/-- What happens to the stage of this index. -/
inductive Event
  | started (index : Nat)
  | waited (index : Nat)
  | polled (index : Nat)
  deriving DecidableEq

abbrev Run (ρ ε α : Type) := LoggedOp Event (ShellState ρ) ε α

def onClone {α : Type} (x : Op (ShellState ρ) ε α) : Op (ShellState ρ) ε α := fun s => ((x s).1, s)

def runInCurrentShell (options : Options) (len index : Nat) : Bool :=
  len == 1 || (index == len - 1 && options.runLastPipelineCmdInCurrentShell &&
    !options.enableJobControl)

def createPipes (sys : System ρ ε) : Nat → Run ρ ε Unit
  | 0 => pure ()
  | k + 1 => do
    createPipes sys k
    LoggedOp.check (sys.pipe k)

def spawnStage (sys : System ρ ε) (len index : Nat) (stage : Stage ρ ε) :
    Op (ShellState ρ) ε (Spawned ε) := do
  let current ← Op.read fun s => .ok (runInCurrentShell s.options len index)
  if current then stage.executeInPipeline sys else onClone (stage.executeInPipeline sys)

/-- The loop that starts the stages. -/
def spawnFrom (sys : System ρ ε) (len : Nat) : Nat → List (Stage ρ ε) → Run ρ ε (List (Spawned ε))
  | _, [] => pure []
  | index, stage :: stages => do
    let spawned ← (spawnStage sys len index stage).unlogged
    LoggedOp.note (.started index)
    let spawnResults ← spawnFrom sys len (index + 1) stages
    pure (spawned :: spawnResults)

def spawnPipelineProcesses (sys : System ρ ε) (seq : List (Stage ρ ε)) :
    Run ρ ε (List (Spawned ε)) := do
  createPipes sys (seq.length - 1)
  spawnFrom sys seq.length 0 seq

/-- What the loop that waits has seen. -/
structure Seen where
  result : ExecutionResult
  stopped : Bool
  lastFailure : Option UInt8

def Seen.completed (seen : Seen) (result : ExecutionResult) : Seen :=
  { seen with
    result := result
    lastFailure := if result.isSuccess then seen.lastFailure else some result.exitCode }

/-- The result, with `pipefail` or without it. -/
def Seen.final (seen : Seen) (pipefail : Bool) : ExecutionResult :=
  if pipefail then
    { seen.result with exitCode := seen.lastFailure.getD seen.result.exitCode }
  else seen.result

/-- `ExecutionResult::stopped`. -/
def stoppedResult : ExecutionResult := ⟨.normal, 148⟩

def update (f : ShellState ρ → ShellState ρ) : Op (ShellState ρ) ε Unit := fun s => (.ok (), f s)

def pushStatus (code : UInt8) : Op (ShellState ρ) ε Unit :=
  update fun s => (s.setLastExitStatus code).setStatuses (s.lastPipelineStatuses ++ [code])

def waitFor (stopped : Bool) (index : Nat) (child : Spawned ε) : Run ρ ε WaitResult := do
  LoggedOp.note (if stopped && child.isProcess then .polled index else .waited index)
  LoggedOp.check (if stopped then child.poll else child.wait)

/-- The loop that waits for the stages. -/
def waitFrom : Nat → List (Spawned ε) → Seen → Run ρ ε Seen
  | _, [], seen => pure seen
  | index, child :: children, seen => do
    match ← waitFor seen.stopped index child with
    | .completed result => do
      (pushStatus result.exitCode).unlogged
      waitFrom (index + 1) children (seen.completed result)
    | .stopped => do
      (pushStatus stoppedResult.exitCode).unlogged
      waitFrom (index + 1) children { seen with result := stoppedResult, stopped := true }

def waitForPipelineProcessesAndUpdateStatus (sys : System ρ ε) (spawned : List (Spawned ε)) :
    Run ρ ε ExecutionResult := do
  (update fun s => s.setStatuses []).unlogged
  let seen ← waitFrom 0 spawned ⟨.success, false, none⟩
  let options ← (Op.read fun s => .ok s.options).unlogged
  LoggedOp.check (if options.interactive then sys.moveSelfToForeground else .ok ())
  (if seen.stopped then sys.adopt else pure ()).unlogged
  pure (seen.final options.returnLastFailureFromPipeline)

/-- The status after `!`. -/
def invert (bang : Bool) (code : UInt8) : UInt8 :=
  if bang then (if code == 0 then 1 else 0) else code

/-- Whether the `ERR` trap is delivered. -/
def isDelivered (suppress bang : Bool) (code : UInt8) : Bool :=
  code != 0 && !(suppress || bang) && !bang

/-- The result of a pipeline once the trap has been delivered: `apply_errexit_if_enabled`. -/
def Pipeline.answer (suppress : Bool) (p : Pipeline ρ ε) (result : ExecutionResult)
    (s : ShellState ρ) : ExecutionResult :=
  if !(suppress || p.bang) && !p.bang && s.options.exitOnNonzeroCommandExit &&
      !result.isSuccess && result.isNormalFlow then
    { result with nextControlFlow := .exitShell }
  else result

/-- `Pipeline::execute`. -/
def Pipeline.execute (sys : System ρ ε) (suppress : Bool) (p : Pipeline ρ ε) :
    Run ρ ε ExecutionResult := do
  let spawned ← spawnPipelineProcesses sys p.seq
  let result ← waitForPipelineProcessesAndUpdateStatus sys spawned
  let result := { result with exitCode := invert p.bang result.exitCode }
  (update fun s => s.setLastExitStatus result.exitCode).unlogged
  (if isDelivered suppress p.bang result.exitCode then sys.errTrap else pure ()).unlogged
  (Op.read fun s => .ok (p.answer suppress result s)).unlogged

/-! ## What a pipeline should do -/

/-- How a stage ends, in the shell `s`. -/
def Stage.outcome (sys : System ρ ε) (s : ShellState ρ) (stage : Stage ρ ε) :
    Except ε WaitResult := do
  let spawned ← (stage.executeInPipeline sys s).1
  spawned.wait

def Stage.status (sys : System ρ ε) (s : ShellState ρ) (stage : Stage ρ ε) : UInt8 :=
  match stage.outcome sys s with
  | .ok (.completed result) => result.exitCode
  | .ok .stopped => stoppedResult.exitCode
  | .error e => sys.exitCode e

/-- The shell once the stages are started: the last one may run in it. -/
def lastState (sys : System ρ ε) (len : Nat) (s : ShellState ρ) (stages : List (Stage ρ ε)) :
    ShellState ρ :=
  match stages.getLast? with
  | none => s
  | some stage =>
    if runInCurrentShell s.options len (len - 1) then (stage.executeInPipeline sys s).2 else s

/-- The rightmost status that is not `0`, or `0`. -/
def lastFailing (codes : List UInt8) : UInt8 := (codes.reverse.find? (· != 0)).getD 0

namespace Pipeline

section

variable (sys : System ρ ε) (suppress : Bool) (p : Pipeline ρ ε) (s : ShellState ρ)

def codes : List UInt8 := p.seq.map (Stage.status sys s)

def afterStart : ShellState ρ := lastState sys p.seq.length s p.seq

def status : UInt8 :=
  invert p.bang (if (p.afterStart sys s).options.returnLastFailureFromPipeline then
    lastFailing (p.codes sys s) else (p.codes sys s).getLastD 0)

def settled : ShellState ρ :=
  ((p.afterStart sys s).setStatuses (p.codes sys s)).setLastExitStatus (p.status sys s)

/-- The handler of the `ERR` trap, if it is run. -/
def trapped : Except ε Unit × ShellState ρ :=
  (if isDelivered suppress p.bang (p.status sys s) then sys.errTrap else pure ()) (p.settled sys s)

def NeverStops : Prop := ∀ stage ∈ p.seq, stage.outcome sys s ≠ .ok .stopped

/-- **Completeness.** Every stage is started and waited for exactly once, and the statuses are
those of the stages. -/
structure Complete : Prop where
  status : ∃ result, (p.execute sys suppress s).1 = .ok result ∧ result.exitCode = p.status sys s
  statuses : (p.execute sys suppress s).2.1.lastPipelineStatuses = p.codes sys s
  started : ∀ i, i < p.seq.length → .started i ∈ (p.execute sys suppress s).2.2
  waited : ∀ i, .started i ∈ (p.execute sys suppress s).2.2 →
    (p.execute sys suppress s).2.2.count (.waited i) = 1

/-- Nothing fails that is left to the pipeline, and the trap keeps the statuses. -/
structure Unharmed : Prop where
  pipes : ∀ k, k < p.seq.length - 1 → sys.pipe k = .ok ()
  stages : ∀ stage ∈ p.seq, ∃ w, stage.outcome sys s = .ok w
  foreground : (p.afterStart sys s).options.interactive = true → sys.moveSelfToForeground = .ok ()
  trap : isDelivered suppress p.bang (p.status sys s) = true →
    ∃ s', sys.errTrap (p.settled sys s) = (.ok (), s') ∧
      s'.lastPipelineStatuses = p.codes sys s

end

end Pipeline

/-! ## Starting -/

section

variable {sys : System ρ ε} {s : ShellState ρ}

theorem createPipes_of_ok {k : Nat} (h : ∀ j, j < k → sys.pipe j = .ok ()) :
    createPipes sys k s = (.ok (), s, []) := by
  induction k with
  | zero => rfl
  | succ k ih =>
    have hprev := ih fun j hj => h j (Nat.lt_succ_of_lt hj)
    rw [createPipes, LoggedOp.bind_ok hprev, h k (Nat.lt_succ_self k)]
    rfl

theorem pipes_of_createPipes {k : Nat} (h : (createPipes sys k s).1 = .ok ()) {j : Nat}
    (hj : j < k) : sys.pipe j = .ok () := by
  induction k with
  | zero => exact absurd hj (Nat.not_lt_zero j)
  | succ k ih =>
    obtain ⟨⟨⟩, s', l, hprev, hlast⟩ := LoggedOp.bind_fst_eq_ok h
    rcases Nat.lt_succ_iff_lt_or_eq.1 hj with hlt | rfl
    · exact ih (by rw [hprev]) hlt
    · exact hlast

/-- What a stage starts as in the shell `s`. -/
def StartsAs (sys : System ρ ε) (s : ShellState ρ) (stage : Stage ρ ε) (spawned : Spawned ε) :
    Prop :=
  (stage.executeInPipeline sys s).1 = .ok spawned

theorem runInCurrentShell_of_lt {options : Options} {len index : Nat} (h : index + 1 < len) :
    runInCurrentShell options len index = false := by
  unfold runInCurrentShell
  have hlen : (len == 1) = false := beq_false_of_ne (by omega)
  have hindex : (index == len - 1) = false := beq_false_of_ne (by omega)
  rw [hlen, hindex]
  rfl

theorem spawnStage_apply (len index : Nat) (stage : Stage ρ ε) :
    spawnStage sys len index stage s =
      ((stage.executeInPipeline sys s).1,
        if runInCurrentShell s.options len index then (stage.executeInPipeline sys s).2 else s) := by
  change (if runInCurrentShell s.options len index then stage.executeInPipeline sys
    else onClone (stage.executeInPipeline sys)) s = _
  split_ifs <;> rfl

theorem lastState_cons_cons (len : Nat) (stage stage' : Stage ρ ε) (stages : List (Stage ρ ε)) :
    lastState sys len s (stage :: stage' :: stages) = lastState sys len s (stage' :: stages) := by
  unfold lastState
  rw [List.getLast?_cons_cons]

/-- **The loop that starts the stages**, where each of them starts. -/
theorem spawnFrom_of_startsAs {stages : List (Stage ρ ε)} {spawned : List (Spawned ε)}
    (h : List.Forall₂ (StartsAs sys s) stages spawned) {len index : Nat}
    (hlen : index + stages.length = len) :
    spawnFrom sys len index stages s =
      (.ok spawned, lastState sys len s stages, (List.range' index stages.length).map .started) := by
  induction h generalizing index with
  | nil => rfl
  | @cons stage sp stages spawned hstage hstages ih =>
    have hfirst : (spawnStage sys len index stage).unlogged s = (.ok sp,
        (if runInCurrentShell s.options len index then (stage.executeInPipeline sys s).2 else s),
        ([] : List Event)) := by
      unfold Op.unlogged
      rw [spawnStage_apply, hstage]
    rw [List.length_cons] at hlen
    refine LoggedOp.bind_run hfirst ?_
    have hnote : LoggedOp.note (.started index) (if runInCurrentShell s.options len index then
        (stage.executeInPipeline sys s).2 else s) =
      ((.ok (), _, [.started index]) : Except ε Unit × ShellState ρ × List Event) := rfl
    refine LoggedOp.bind_run hnote ?_
    cases hstages with
    | nil =>
      obtain rfl : index = len - 1 := by
        rw [List.length_nil] at hlen
        omega
      rfl
    | @cons stage' _ stages _ hstage' hstages =>
      rw [runInCurrentShell_of_lt (by rw [List.length_cons] at hlen; omega),
        lastState_cons_cons]
      have hrest := @ih (index + 1) (by omega)
      have hpure := LoggedOp.bind_run (f := fun spawnResults => pure (sp :: spawnResults)) hrest rfl
      rw [List.append_nil] at hpure
      exact hpure

theorem startsAs_of_spawnFrom {len : Nat} {stages : List (Stage ρ ε)} {spawned : List (Spawned ε)}
    {index : Nat} (hlen : index + stages.length = len)
    (h : (spawnFrom sys len index stages s).1 = .ok spawned) :
    List.Forall₂ (StartsAs sys s) stages spawned := by
  induction stages generalizing index spawned with
  | nil =>
    cases h
    exact .nil
  | cons stage stages ih =>
    rw [List.length_cons] at hlen
    obtain ⟨sp, s₁, l₁, hstage, hnext⟩ := LoggedOp.bind_fst_eq_ok h
    obtain ⟨⟨⟩, s₂, l₂, hnote, hnext⟩ := LoggedOp.bind_fst_eq_ok hnext
    obtain ⟨rest, s₃, l₃, hrest, hnext⟩ := LoggedOp.bind_fst_eq_ok hnext
    cases hnext
    cases hnote
    unfold Op.unlogged at hstage
    rw [spawnStage_apply] at hstage
    obtain ⟨hstart, hstate⟩ := Prod.mk.inj hstage
    refine .cons hstart ?_
    cases stages with
    | nil =>
      cases hrest
      exact .nil
    | cons stage' stages =>
      rw [runInCurrentShell_of_lt (by rw [List.length_cons] at hlen; omega)] at hstate
      obtain ⟨hstate, -⟩ := Prod.mk.inj hstate
      cases hstate
      exact @ih _ (index + 1) (by omega) (congrArg Prod.fst hrest)

end

/-! ## Waiting -/

def EndsAs (spawned : Spawned ε) (result : ExecutionResult) : Prop :=
  spawned.wait = .ok (.completed result)

def ShellState.pushed (s : ShellState ρ) (code : UInt8) : ShellState ρ :=
  (s.setLastExitStatus code).setStatuses (s.lastPipelineStatuses ++ [code])

theorem foldl_pushed (codes : List UInt8) (s : ShellState ρ) :
    codes.foldl ShellState.pushed s =
      (s.setStatuses (s.lastPipelineStatuses ++ codes)).setLastExitStatus
        (codes.getLastD s.lastExitStatus) := by
  induction codes generalizing s with
  | nil => rw [List.foldl_nil, List.append_nil, List.getLastD_nil]; rfl
  | cons code codes ih =>
    rw [List.foldl_cons, ih, List.getLastD_cons]
    unfold ShellState.pushed
    rw [ShellState.setStatuses_statuses, List.append_assoc, List.singleton_append]
    rfl

theorem foldl_completed_result (results : List ExecutionResult) (seen : Seen) :
    (results.foldl Seen.completed seen).result = results.getLastD seen.result := by
  induction results generalizing seen with
  | nil => rfl
  | cons result results ih => rw [List.foldl_cons, ih, List.getLastD_cons]; rfl

theorem foldl_completed_stopped (results : List ExecutionResult) (seen : Seen) :
    (results.foldl Seen.completed seen).stopped = seen.stopped := by
  induction results generalizing seen with
  | nil => rfl
  | cons result results ih => rw [List.foldl_cons, ih]; rfl

theorem foldl_completed_lastFailure (results : List ExecutionResult) (seen : Seen) :
    (results.foldl Seen.completed seen).lastFailure =
      ((results.map ExecutionResult.exitCode).reverse.find? (· != 0)).or seen.lastFailure := by
  induction results generalizing seen with
  | nil => rfl
  | cons result results ih =>
    rw [List.foldl_cons, ih, List.map_cons, List.reverse_cons, List.find?_append, Option.or_assoc]
    congr 1
    unfold Seen.completed ExecutionResult.isSuccess
    by_cases hcode : result.exitCode = 0
    · simp [hcode]
    · simp [hcode]

section

variable {s : ShellState ρ}

/-- **The loop that waits**, where each of the stages ends. -/
theorem waitFrom_of_endsAs {children : List (Spawned ε)} {results : List ExecutionResult}
    (h : List.Forall₂ EndsAs children results) {index : Nat} {seen : Seen}
    (hseen : seen.stopped = false) :
    waitFrom index children seen s =
      (.ok (results.foldl Seen.completed seen),
        (results.map ExecutionResult.exitCode).foldl ShellState.pushed s,
        (List.range' index children.length).map .waited) := by
  induction h generalizing index seen s with
  | nil => rfl
  | @cons child result children results hchild _ ih =>
    have hwait : waitFor seen.stopped index child s =
        (.ok (.completed result), s, [.waited index]) := by
      rw [hseen, waitFor, Bool.false_and, if_neg Bool.false_ne_true, if_neg Bool.false_ne_true,
        hchild]
      rfl
    have hpush : (pushStatus result.exitCode : Op (ShellState ρ) ε Unit).unlogged s =
        (.ok (), s.pushed result.exitCode, ([] : List Event)) := rfl
    exact LoggedOp.bind_run hwait (LoggedOp.bind_run hpush (ih hseen))

theorem endsAs_of_waitFrom {children : List (Spawned ε)} {index : Nat} {seen seen' : Seen}
    (hseen : seen.stopped = false) (hstop : ∀ child ∈ children, child.wait ≠ .ok .stopped)
    (h : (waitFrom index children seen s).1 = .ok seen') :
    ∃ results, List.Forall₂ EndsAs children results := by
  induction children generalizing index seen s with
  | nil => exact ⟨[], .nil⟩
  | cons child children ih =>
    obtain ⟨w, s₁, l₁, hwait, hnext⟩ := LoggedOp.bind_fst_eq_ok h
    obtain ⟨⟨⟩, s₂, l₂, -, hchild⟩ :=
      LoggedOp.bind_fst_eq_ok (congrArg Prod.fst hwait)
    rw [hseen, if_neg Bool.false_ne_true] at hchild
    change child.wait = .ok w at hchild
    cases w with
    | stopped => exact absurd hchild (hstop child List.mem_cons_self)
    | completed result =>
      obtain ⟨⟨⟩, s₃, l₃, -, hrest⟩ := LoggedOp.bind_fst_eq_ok hnext
      have hseen' : (seen.completed result).stopped = false := hseen
      obtain ⟨results, hresults⟩ :=
        ih hseen' (fun child' hmem => hstop child' (List.mem_cons_of_mem _ hmem)) hrest
      exact ⟨result :: results, .cons hchild hresults⟩

end

/-! ## Stages that start and end -/

section

variable {sys : System ρ ε} {s : ShellState ρ}

theorem outcome_of_startsAs {stage : Stage ρ ε} {spawned : Spawned ε}
    (h : StartsAs sys s stage spawned) : stage.outcome sys s = spawned.wait := by
  unfold Stage.outcome
  rw [h]
  rfl

theorem status_of_endsAs {stage : Stage ρ ε} {spawned : Spawned ε} {result : ExecutionResult}
    (hstart : StartsAs sys s stage spawned) (hend : EndsAs spawned result) :
    stage.status sys s = result.exitCode := by
  unfold Stage.status
  rw [outcome_of_startsAs hstart, hend]

theorem codes_eq {stages : List (Stage ρ ε)} {spawned : List (Spawned ε)}
    {results : List ExecutionResult} (hstart : List.Forall₂ (StartsAs sys s) stages spawned)
    (hend : List.Forall₂ EndsAs spawned results) :
    results.map ExecutionResult.exitCode = stages.map (Stage.status sys s) := by
  induction hstart generalizing results with
  | nil =>
    cases hend
    rfl
  | cons hstage _ ih =>
    cases hend with
    | cons hresult hresults =>
      rw [List.map_cons, List.map_cons, ih hresults, status_of_endsAs hstage hresult]

theorem exists_endsAs {stages : List (Stage ρ ε)}
    (h : ∀ stage ∈ stages, ∃ w, stage.outcome sys s = .ok w)
    (hstop : ∀ stage ∈ stages, stage.outcome sys s ≠ .ok .stopped) :
    ∃ spawned results, List.Forall₂ (StartsAs sys s) stages spawned ∧
      List.Forall₂ EndsAs spawned results := by
  induction stages with
  | nil => exact ⟨[], [], .nil, .nil⟩
  | cons stage stages ih =>
    obtain ⟨spawned, results, hstart, hend⟩ :=
      ih (fun st hst => h st (List.mem_cons_of_mem _ hst))
        fun st hst => hstop st (List.mem_cons_of_mem _ hst)
    obtain ⟨w, hw⟩ := h stage List.mem_cons_self
    have hnot := hstop stage List.mem_cons_self
    obtain ⟨sp, hsp, hwait⟩ := Op.except_bind_eq_ok.1 hw
    cases w with
    | stopped => exact absurd hw hnot
    | completed result => exact ⟨sp :: spawned, result :: results, .cons hsp hstart, .cons hwait hend⟩

theorem exitCode_getLastD (results : List ExecutionResult) :
    (results.getLastD .success).exitCode =
      (results.map ExecutionResult.exitCode).getLastD 0 := by
  rw [List.getLastD_eq_getLast?, List.getLastD_eq_getLast?, List.getLast?_map]
  cases results.getLast? <;> rfl

theorem getLastD_eq_zero {codes : List UInt8} (h : codes.reverse.find? (· != 0) = none) :
    codes.getLastD 0 = 0 := by
  rw [List.find?_eq_none] at h
  rw [List.getLastD_eq_getLast?]
  cases hlast : codes.getLast? with
  | none => rfl
  | some code =>
    have hzero := h code (List.mem_reverse.2 (List.mem_of_getLast? hlast))
    simpa using hzero

theorem final_exitCode (results : List ExecutionResult) (pipefail : Bool) :
    ((results.foldl Seen.completed ⟨.success, false, none⟩).final pipefail).exitCode =
      if pipefail then lastFailing (results.map ExecutionResult.exitCode)
      else (results.map ExecutionResult.exitCode).getLastD 0 := by
  unfold Seen.final
  rw [foldl_completed_lastFailure, foldl_completed_result, Option.or_none]
  cases pipefail with
  | false => exact exitCode_getLastD results
  | true =>
    change Option.getD _ (results.getLastD .success).exitCode = lastFailing _
    rw [exitCode_getLastD, lastFailing]
    cases hfind : (results.map ExecutionResult.exitCode).reverse.find? (· != 0) with
    | none => exact getLastD_eq_zero hfind
    | some code => rfl

/-! ## Runs -/

def ShellState.withStatuses (s : ShellState ρ) (codes : List UInt8) : ShellState ρ :=
  (s.setStatuses codes).setLastExitStatus (codes.getLastD s.lastExitStatus)

theorem wait_run {spawned : List (Spawned ε)} {results : List ExecutionResult}
    (hend : List.Forall₂ EndsAs spawned results) {answer : Except ε Unit}
    (hfore : (if s.options.interactive then sys.moveSelfToForeground else .ok ()) = answer) :
    waitForPipelineProcessesAndUpdateStatus sys spawned s =
      (answer.map fun _ => (results.foldl Seen.completed ⟨.success, false, none⟩).final
          s.options.returnLastFailureFromPipeline,
        s.withStatuses (results.map ExecutionResult.exitCode),
        (List.range' 0 spawned.length).map .waited) := by
  have hclear : (update fun s => s.setStatuses [] : Op (ShellState ρ) ε Unit).unlogged s =
      (.ok (), s.setStatuses [], ([] : List Event)) := rfl
  have hwait : waitFrom 0 spawned ⟨.success, false, none⟩ (s.setStatuses []) =
      (.ok (results.foldl Seen.completed ⟨.success, false, none⟩),
        s.withStatuses (results.map ExecutionResult.exitCode),
        (List.range' 0 spawned.length).map .waited) := by
    rw [waitFrom_of_endsAs hend rfl, foldl_pushed]
    rfl
  have hoptions (s' : ShellState ρ) :
      (Op.read fun s => .ok s.options : Op (ShellState ρ) ε Options).unlogged s' =
        (.ok s'.options, s', ([] : List Event)) := rfl
  refine LoggedOp.bind_run hclear ?_
  rw [← List.append_nil (List.map Event.waited _)]
  refine LoggedOp.bind_run hwait ?_
  refine LoggedOp.bind_run (hoptions _) ?_
  rw [foldl_completed_stopped]
  change (LoggedOp.check (if s.options.interactive then sys.moveSelfToForeground else .ok ()) >>=
    _ : Run ρ ε ExecutionResult) _ = _
  rw [hfore]
  cases answer <;> rfl

def fullLog (len : Nat) : List Event :=
  (List.range' 0 len).map .started ++ (List.range' 0 len).map .waited

theorem Pipeline.answer_exitCode (suppress : Bool) (p : Pipeline ρ ε) (result : ExecutionResult)
    (s : ShellState ρ) : (p.answer suppress result s).exitCode = result.exitCode := by
  unfold answer
  split_ifs <;> rfl

/-- **The run** of a pipeline whose stages start and end, up to the trap. -/
theorem execute_run {p : Pipeline ρ ε} (suppress : Bool) {spawned : List (Spawned ε)}
    {results : List ExecutionResult} (hpipes : ∀ k, k < p.seq.length - 1 → sys.pipe k = .ok ())
    (hstart : List.Forall₂ (StartsAs sys s) p.seq spawned)
    (hend : List.Forall₂ EndsAs spawned results)
    (hfore : (p.afterStart sys s).options.interactive = true → sys.moveSelfToForeground = .ok ()) :
    ∃ result : ExecutionResult, result.exitCode = p.status sys s ∧
      p.execute sys suppress s =
        ((p.trapped sys suppress s).1.map fun _ => p.answer suppress result
            (p.trapped sys suppress s).2,
          (p.trapped sys suppress s).2, fullLog p.seq.length) := by
  have hspawn : spawnPipelineProcesses sys p.seq s = (.ok spawned, p.afterStart sys s,
      (List.range' 0 p.seq.length).map .started) :=
    LoggedOp.bind_run (createPipes_of_ok hpipes)
      (spawnFrom_of_startsAs hstart (Nat.zero_add _))
  have hanswer : (if (p.afterStart sys s).options.interactive then sys.moveSelfToForeground
      else .ok ()) = .ok () := by
    split_ifs with hinter
    · exact hfore hinter
    · rfl
  have hwait := wait_run (s := p.afterStart sys s) hend hanswer
  rw [← hstart.length_eq, codes_eq hstart hend] at hwait
  have hcode := final_exitCode results (p.afterStart sys s).options.returnLastFailureFromPipeline
  rw [codes_eq hstart hend] at hcode
  generalize (results.foldl Seen.completed ⟨.success, false, none⟩).final
    (p.afterStart sys s).options.returnLastFailureFromPipeline = result at hwait hcode
  have hstatus : invert p.bang result.exitCode = p.status sys s := by
    rw [hcode]
    rfl
  refine ⟨{ result with exitCode := invert p.bang result.exitCode }, hstatus, ?_⟩
  rw [fullLog, ← List.append_nil (List.map Event.waited _)]
  refine LoggedOp.bind_run hspawn ?_
  refine LoggedOp.bind_run hwait ?_
  have hupdate : (update fun s => s.setLastExitStatus (invert p.bang result.exitCode) :
      Op (ShellState ρ) ε Unit).unlogged
      ((p.afterStart sys s).withStatuses (p.seq.map (Stage.status sys s))) =
        (.ok (), p.settled sys s, ([] : List Event)) := by
    rw [hstatus]
    rfl
  refine LoggedOp.bind_run hupdate ?_
  have htrap : (if isDelivered suppress p.bang (invert p.bang result.exitCode) then sys.errTrap
      else pure ()).unlogged (p.settled sys s) =
        ((p.trapped sys suppress s).1, (p.trapped sys suppress s).2, ([] : List Event)) := by
    rw [hstatus]
    rfl
  generalize p.trapped sys suppress s = t at htrap ⊢
  obtain ⟨_ | _, s'⟩ := t
  · exact LoggedOp.bind_error htrap
  · exact LoggedOp.bind_run htrap rfl

theorem exists_outcome {stages : List (Stage ρ ε)} {spawned : List (Spawned ε)}
    {results : List ExecutionResult} (hstart : List.Forall₂ (StartsAs sys s) stages spawned)
    (hend : List.Forall₂ EndsAs spawned results) :
    ∀ stage ∈ stages, ∃ w, stage.outcome sys s = .ok w := by
  induction hstart generalizing results with
  | nil => exact fun stage hmem => absurd hmem List.not_mem_nil
  | cons hstage _ ih =>
    cases hend with
    | cons hresult hresults =>
      intro stage hmem
      rcases List.mem_cons.1 hmem with rfl | hmem
      · exact ⟨_, (outcome_of_startsAs hstage).trans hresult⟩
      · exact ih hresults stage hmem

theorem wait_ne_stopped {stages : List (Stage ρ ε)} {spawned : List (Spawned ε)}
    (hstart : List.Forall₂ (StartsAs sys s) stages spawned)
    (hstop : ∀ stage ∈ stages, stage.outcome sys s ≠ .ok .stopped) :
    ∀ child ∈ spawned, child.wait ≠ .ok .stopped := by
  induction hstart with
  | nil => exact fun child hmem => absurd hmem List.not_mem_nil
  | cons hstage _ ih =>
    intro child hmem
    rcases List.mem_cons.1 hmem with rfl | hmem
    · rw [← outcome_of_startsAs hstage]
      exact hstop _ List.mem_cons_self
    · exact ih (fun stage hst => hstop stage (List.mem_cons_of_mem _ hst)) child hmem

/-- Where a pipeline answers and no stage stops, no stage has failed, and neither have the pipes
nor the terminal. -/
theorem exists_endsAs_of_execute {p : Pipeline ρ ε} {suppress : Bool} {result : ExecutionResult}
    (hstop : p.NeverStops sys s) (h : (p.execute sys suppress s).1 = .ok result) :
    (∀ k, k < p.seq.length - 1 → sys.pipe k = .ok ()) ∧
      (∃ spawned results, List.Forall₂ (StartsAs sys s) p.seq spawned ∧
        List.Forall₂ EndsAs spawned results) ∧
      ((p.afterStart sys s).options.interactive = true → sys.moveSelfToForeground = .ok ()) := by
  obtain ⟨spawned, s₁, l₁, hspawn, hnext⟩ := LoggedOp.bind_fst_eq_ok h
  obtain ⟨⟨⟩, s₂, l₂, hpipes, hstages⟩ := LoggedOp.bind_fst_eq_ok (congrArg Prod.fst hspawn)
  obtain ⟨answer, s₃, l₃, hwait, -⟩ := LoggedOp.bind_fst_eq_ok hnext
  have hpipe : ∀ k, k < p.seq.length - 1 → sys.pipe k = .ok () := fun k hk =>
    pipes_of_createPipes (congrArg Prod.fst hpipes) hk
  rw [createPipes_of_ok hpipe] at hpipes
  cases hpipes
  have hstart := startsAs_of_spawnFrom (Nat.zero_add _) hstages
  have hrun : spawnPipelineProcesses sys p.seq s = (.ok spawned, p.afterStart sys s,
      (List.range' 0 p.seq.length).map .started) :=
    LoggedOp.bind_run (createPipes_of_ok hpipe) (spawnFrom_of_startsAs hstart (Nat.zero_add _))
  rw [hrun] at hspawn
  cases hspawn
  obtain ⟨⟨⟩, s₄, l₄, hclear, hloops⟩ := LoggedOp.bind_fst_eq_ok (congrArg Prod.fst hwait)
  obtain ⟨seen, s₅, l₅, hloop, -⟩ := LoggedOp.bind_fst_eq_ok hloops
  obtain ⟨results, hend⟩ :=
    endsAs_of_waitFrom rfl (wait_ne_stopped hstart hstop) (congrArg Prod.fst hloop)
  refine ⟨hpipe, ⟨spawned, results, hstart, hend⟩, fun hinter => ?_⟩
  have hanswer := congrArg Prod.fst (@wait_run _ _ sys (p.afterStart sys s) _ _ hend _ rfl)
  rw [hwait, if_pos hinter] at hanswer
  cases hfore : sys.moveSelfToForeground with
  | ok _ => rfl
  | error e =>
    rw [hfore] at hanswer
    cases hanswer

theorem count_fullLog {len i : Nat} (h : i < len) : (fullLog len).count (.waited i) = 1 := by
  have hstarted : ((List.range' 0 len).map Event.started).count (.waited i) = 0 :=
    List.count_eq_zero.2 (by simp)
  have hnodup : ((List.range' 0 len).map Event.waited).Nodup :=
    List.Nodup.map (fun _ _ hab => Event.waited.inj hab) (List.nodup_range' 1)
  have hmem : Event.waited i ∈ (List.range' 0 len).map Event.waited := by simp [h]
  rw [fullLog, List.count_append, hstarted, List.count_eq_one_of_mem hnodup hmem]

theorem mem_fullLog {len i : Nat} : .started i ∈ fullLog len ↔ i < len := by
  simp [fullLog]

/-- **Complete pipelines.** A pipeline none of whose stages stops is complete if and only if nothing
fails that is left to it, and the handler of the `ERR` trap keeps the statuses. -/
theorem Pipeline.complete_iff (sys : System ρ ε) (suppress : Bool) (p : Pipeline ρ ε)
    (s : ShellState ρ) (hstop : p.NeverStops sys s) :
    p.Complete sys suppress s ↔ p.Unharmed sys suppress s := by
  constructor
  · intro h
    obtain ⟨result, hresult, -⟩ := h.status
    obtain ⟨hpipes, ⟨spawned, results, hstart, hend⟩, hfore⟩ :=
      exists_endsAs_of_execute hstop hresult
    obtain ⟨answer, -, hrun⟩ := execute_run suppress hpipes hstart hend hfore
    refine ⟨hpipes, exists_outcome hstart hend, hfore, fun hdelivered => ?_⟩
    have hstatuses := h.statuses
    have htrapped : p.trapped sys suppress s = sys.errTrap (p.settled sys s) := by
      unfold Pipeline.trapped
      rw [if_pos hdelivered]
    rw [hrun] at hresult hstatuses
    rw [← htrapped]
    generalize p.trapped sys suppress s = t at hresult hstatuses ⊢
    obtain ⟨_ | _, s'⟩ := t
    · cases hresult
    · exact ⟨s', rfl, hstatuses⟩
  · intro h
    obtain ⟨spawned, results, hstart, hend⟩ := exists_endsAs h.stages hstop
    obtain ⟨result, hcode, hrun⟩ :=
      execute_run suppress h.pipes hstart hend h.foreground
    have htrapped : ∃ s', p.trapped sys suppress s = (.ok (), s') ∧
        s'.lastPipelineStatuses = p.codes sys s := by
      unfold Pipeline.trapped
      split_ifs with hdelivered
      · exact h.trap hdelivered
      · exact ⟨p.settled sys s, rfl, rfl⟩
    obtain ⟨s', htrapped, hstatuses⟩ := htrapped
    rw [htrapped] at hrun
    constructor
    · rw [hrun]
      exact ⟨_, rfl, (Pipeline.answer_exitCode ..).trans hcode⟩
    · rw [hrun]
      exact hstatuses
    · intro i hi
      rw [hrun]
      exact mem_fullLog.2 hi
    · intro i hi
      rw [hrun] at hi ⊢
      exact count_fullLog (mem_fullLog.1 hi)

end

/-! ## Pipelines of two stages -/

/-- A system on which nothing fails. -/
def calm : System Unit Unit where
  pipe _ := .ok ()
  moveSelfToForeground := .ok ()
  adopt := pure ()
  errTrap := pure ()
  complain _ := pure ()
  exitCode _ := 1
  isFatal _ := false

def fresh : ShellState Unit where
  lastPipelineStatuses := [0]
  lastExitStatus := 0
  options :=
    { doNotExecuteCommands := false
      returnLastFailureFromPipeline := true
      runLastPipelineCmdInCurrentShell := false
      enableJobControl := false
      interactive := false
      exitOnNonzeroCommandExit := false }
  rest := ()

/-- A program that exits with `code`. -/
def external (code : UInt8) : Stage Unit Unit :=
  .simple [] fun _ => .command fun s => (.ok (.startedProcess (.ok (.completed code))), s)

theorem complete_external :
    (⟨true, [external 3, external 0]⟩ : Pipeline Unit Unit).Complete calm false fresh := by
  refine (Pipeline.complete_iff calm false _ fresh ?_).2 ⟨fun _ _ => rfl, ?_, fun _ => rfl, ?_⟩
  · intro stage hmem
    rcases List.mem_pair.1 hmem with rfl | rfl <;> exact fun h => nomatch h
  · intro stage hmem
    rcases List.mem_pair.1 hmem with rfl | rfl
    · exact ⟨.completed ⟨.normal, 3⟩, rfl⟩
    · exact ⟨.completed ⟨.normal, 0⟩, rfl⟩
  · exact fun h => nomatch h

/-- `{ …; } < missing`. -/
def unredirected : Stage Unit Unit :=
  .compound [fun s => (.error (), s)] (pure .success)

/-- `external | { …; } < missing`: the pipeline ends in the error, nobody waits for the program, and
the statuses are those of the pipeline before. -/
theorem not_complete_unredirected :
    ¬(⟨false, [external 0, unredirected]⟩ : Pipeline Unit Unit).Complete calm false fresh ∧
      (Pipeline.execute calm false ⟨false, [external 0, unredirected]⟩ fresh) =
        (.error (), fresh, [.started 0]) := by
  refine ⟨fun h => ?_, rfl⟩
  obtain ⟨result, hresult, -⟩ := h.status
  cases hresult

end Seahaven.Shell.PipelineRun
