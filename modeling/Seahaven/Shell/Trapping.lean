import Seahaven.Lib.TwoRuns
import Seahaven.Shell.LoopControl

/-!
# Trap handlers in a running program

The commands of `interp.rs` and `commands.rs` with the places where a trap is delivered: before a
simple command is executed (`on_preexecute`), and after a pipeline that failed.

1. `TrapShell`: the three records of the last status, and what decides about delivery.
2. `Expansion`: what a command does with its words, with the command substitutions in it.
3. `invokeTrapHandler`, and `execute` of each kind of command. A `Runner` runs texts and the bodies
   of functions; a loop goes round, and runners nest, as often as its fuel says.

A run logs what each command sees of the last statuses, with what it returns, and each trap. What a
handler does is not logged.
-/

namespace Seahaven.Shell.Trapping

open Interp

/-! ## The shell -/

inductive TrapSignal
  | signal (number : Nat)
  | debug
  | err
  | exit
  | return
  deriving DecidableEq

structure Options where
  doNotExecuteCommands : Bool
  returnLastFailureFromPipeline : Bool
  runLastPipelineCmdInCurrentShell : Bool
  enableJobControl : Bool
  interactive : Bool
  exitOnNonzeroCommandExit : Bool
  commandSubstInheritsErrexit : Bool
  shellFunctionsInheritErrTrap : Bool
  shellFunctionsInheritDebugAndReturnTraps : Bool
  maxFunctionCallDepth : Option Nat

/-- What any command may change. -/
structure World (ρ : Type) where
  options : Options
  rest : ρ

structure TrapShell (ρ : Type) where
  lastExitStatus : UInt8
  lastExitStatusChangeCount : Nat
  lastPipelineStatuses : List UInt8
  traps : TrapSignal → Option String
  activeTrapSignals : List TrapSignal
  trapDeliverySuppressCount : Nat
  functionCallDepth : Nat
  depth : Nat
  world : World ρ

/-- What a command sees. -/
structure View (ρ : Type) where
  lastExitStatus : UInt8
  lastPipelineStatuses : List UInt8
  world : World ρ

namespace TrapShell

variable {ρ : Type} (s : TrapShell ρ)

def view : View ρ := ⟨s.lastExitStatus, s.lastPipelineStatuses, s.world⟩

def setLastExitStatus (status : UInt8) : TrapShell ρ :=
  { s with
    lastExitStatus := status
    lastExitStatusChangeCount := s.lastExitStatusChangeCount + 1 }

def inFunction : Bool := 0 < s.functionCallDepth

def isSubshell : Bool := 0 < s.depth

/-- `Shell::clone`. -/
def clone : TrapShell ρ := { s with activeTrapSignals := [], depth := s.depth + 1 }

def isTrapInheritedInCurrentScope : TrapSignal → Bool
  | .err => s.world.options.shellFunctionsInheritErrTrap
  | .debug => s.world.options.shellFunctionsInheritDebugAndReturnTraps
  | .return => s.world.options.shellFunctionsInheritDebugAndReturnTraps
  | _ => true

def enterTrapHandler (signal : TrapSignal) : TrapShell ρ :=
  { s with activeTrapSignals := signal :: s.activeTrapSignals }

def leaveTrapHandler (signal : TrapSignal) : TrapShell ρ :=
  { s with activeTrapSignals := s.activeTrapSignals.erase signal }

end TrapShell

/-! ## Programs -/

/-- What is done with the words of a command. A command substitution names the text that is run, and
is answered the output. -/
inductive Expansion (ρ ε α : Type) : Type
  | done (f : View ρ → Except ε α × World ρ)
  | substitute (command : View ρ → Except ε String × World ρ) (next : String → Expansion ρ ε α)

/-- `ExecutionSpawnResult`, by the result it is waited for. -/
abbrev Spawned (ε : Type) := Except ε ExecutionResult

inductive Builtin (ρ ε : Type) : Type
  /-- A builtin that runs no commands. -/
  | plain (run : View ρ → Except ε ExecutionResult × World ρ)
  /-- `eval` and `.`, with what becomes of the result. -/
  | evaluate (text : String) (after : ExecutionResult → ExecutionResult)
  /-- `trap`, which sets or removes handlers. -/
  | trap (signals : List TrapSignal) (handler : Option String)

/-- What the name of a command names. A function is given by its number. -/
inductive Callee (ρ ε : Type) : Type
  | external (run : View ρ → Except ε (Spawned ε) × World ρ)
  | builtin (body : Builtin ρ ε)
  | function (number : Nat)

structure SimpleCommand (ρ ε : Type) where
  /-- Redirects and words. There are none if a redirect failed, which has been reported. -/
  words : Expansion ρ ε (Option (List String))
  /-- The assignments, where there is no command. -/
  assignments : Expansion ρ ε Unit
  /-- The assignments in the scope of the command. -/
  scopedAssignments : Expansion ρ ε Unit

mutual

/-- `CompoundList`: and-or lists, each with whether it is run asynchronously. -/
inductive CompoundList (ρ ε : Type) : Type
  | nil
  | cons (list : AndOrList ρ ε) (runAsync : Bool) (rest : CompoundList ρ ε)

inductive AndOrList (ρ ε : Type) : Type
  | mk (first : Pipeline ρ ε) (additional : AndOrs ρ ε)

inductive AndOrs (ρ ε : Type) : Type
  | nil
  | cons (isAnd : Bool) (pipeline : Pipeline ρ ε) (rest : AndOrs ρ ε)

inductive Pipeline (ρ ε : Type) : Type
  | mk (bang : Bool) (seq : Commands ρ ε)

/-- The commands of a pipeline. -/
inductive Commands (ρ ε : Type) : Type
  | nil
  | cons (command : Command ρ ε) (rest : Commands ρ ε)

inductive Command (ρ ε : Type) : Type
  | simple (command : SimpleCommand ρ ε)
  | compound (redirects : Expansion ρ ε Unit) (command : CompoundCommand ρ ε)
  | function (define : View ρ → Except ε Unit × World ρ)
  | extendedTest (redirects : Expansion ρ ε Unit) (test : Expansion ρ ε Bool)

inductive CompoundCommand (ρ ε : Type) : Type
  | braceGroup (list : CompoundList ρ ε)
  | subshell (list : CompoundList ρ ε)
  | forClause (values : Expansion ρ ε (List String))
    (assign : String → View ρ → Except ε Unit × World ρ) (body : CompoundList ρ ε)
  | caseClause (value : Expansion ρ ε String) (cases : CaseItems ρ ε)
  | ifClause (condition thenList : CompoundList ρ ε) (elses : ElseClauses ρ ε)
  | whileOrUntil (kind : WhileOrUntil) (condition body : CompoundList ρ ε)
  | arithmetic (expr : Expansion ρ ε Int)
  | arithmeticFor (initializer condition updater : Option (Expansion ρ ε Int))
    (body : CompoundList ρ ε)

/-- `matching` expands the patterns of the item one by one until one matches. -/
inductive CaseItems (ρ ε : Type) : Type
  | nil
  | cons (matching : String → Expansion ρ ε Bool) (cmd : CompoundList ρ ε)
    (postAction : CaseItemPostAction) (rest : CaseItems ρ ε)

/-- An `elif` has a condition, an `else` has none. -/
inductive ElseClauses (ρ ε : Type) : Type
  | nil
  | elif (condition body : CompoundList ρ ε) (rest : ElseClauses ρ ε)
  | otherwise (body : CompoundList ρ ε) (rest : ElseClauses ρ ε)

end

/-- `Program`: its complete commands. -/
abbrev Program (ρ ε : Type) := List (CompoundList ρ ε)

/-- What is around the interpreter. -/
structure Setting (ρ ε : Type) where
  parse : Options → String → Except ε (Program ρ ε)
  /-- The bodies of functions, and what is done on the way in and out. -/
  function : Nat → CompoundCommand ρ ε
  functionRedirects : Nat → Expansion ρ ε Unit
  enterFunction : Nat → List String → ρ → ρ
  leaveFunction : World ρ → Except ε Unit × World ρ
  maxFunctionCallDepthExceeded : ε
  unimplemented : ε
  dispatch : List String → World ρ → Callee ρ ε
  /-- Sets `BASH_COMMAND`. -/
  noteCommand : List String → World ρ → Except ε Unit × World ρ
  /-- `update_last_arg_variable`, where there is no command. -/
  clearLastArg : World ρ → World ρ
  /-- `update_last_arg_variable` and `post_execute`. -/
  afterCommand : List String → World ρ → World ρ
  /-- `display_error` and `into_result`. -/
  displayError : ε → World ρ → World ρ
  intoResult : ε → Options → ExecutionResult
  /-- What a subshell has put out, and what it leaves to the shell it was cloned from. -/
  output : ρ → String
  rejoin : ρ → ρ → ρ
  /-- `try_unwrap_bare_input_redir_program`, with the copying of the input. -/
  bareInputRedir : Program ρ ε → Option (Expansion ρ ε Unit)

/-! ## Runs -/

inductive Event (ρ : Type)
  /-- What a command saw of the last statuses. -/
  | observed (lastExitStatus : UInt8) (lastPipelineStatuses : List UInt8)
  /-- What a command returned. -/
  | returned (status : UInt8)
  /-- A trap, with the shell before it, and after it if it ended. -/
  | trapped (signal : TrapSignal) (before : TrapShell ρ) (after : Option (TrapShell ρ))

abbrev Run (ρ ε α : Type) := LoggedOp (Event ρ) (TrapShell ρ) (Stop ε) α

/-- Runs texts and the bodies of functions, under parameters that may suppress `errexit`. -/
structure Runner (ρ ε : Type) where
  runString : Bool → String → Run ρ ε ExecutionResult
  runSubstitutionCommand : Bool → String → Run ρ ε ExecutionResult
  callBody : Bool → Nat → Run ρ ε ExecutionResult
  rounds : Nat

variable {ρ ε α : Type}

namespace Run

def read (f : TrapShell ρ → α) : Run ρ ε α := fun s => (.ok (f s), s, [])

def modify (f : TrapShell ρ → TrapShell ρ) : Run ρ ε Unit := fun s => (.ok (), f s, [])

def check (x : Except ε α) : Run ρ ε α := LoggedOp.check (x.mapError .error)

def outOfFuel : Run ρ ε α := LoggedOp.check (.error .outOfFuel)

def setLastExitStatus (status : UInt8) : Run ρ ε Unit := modify fun s => s.setLastExitStatus status

def act (f : View ρ → Except ε α × World ρ) : Run ρ ε α := fun s =>
  ((f s.view).1.mapError .error, { s with world := (f s.view).2 },
    [.observed s.lastExitStatus s.lastPipelineStatuses])

def change (f : World ρ → Except ε α × World ρ) : Run ρ ε α := fun s =>
  ((f s.world).1.mapError .error, { s with world := (f s.world).2 }, [])

def hidden (x : Run ρ ε α) : Run ρ ε α := fun s => ((x s).1, (x s).2.1, [])

/-- Runs `x` in a clone, and answers with the rest of the clone too. -/
def onClone (rejoin : ρ → ρ → ρ) (adjust : Options → Options) (x : Run ρ ε α) :
    Run ρ ε (Except (Stop ε) α × ρ) := fun s =>
  let cloned := { s.clone with world := { s.world with options := adjust s.world.options } }
  let child := (x cloned).2.1.world.rest
  (.ok ((x cloned).1, child),
    { s with world := { s.world with rest := rejoin s.world.rest child } }, (x cloned).2.2)

/-- Runs `x`, and answers whether no status was set by it too. -/
def counted (x : Run ρ ε α) : Run ρ ε (α × Bool) := fun s =>
  ((x s).1.map fun a =>
    (a, s.lastExitStatusChangeCount == (x s).2.1.lastExitStatusChangeCount), (x s).2)

def ignored (x : Run ρ ε Unit) : Run ρ ε Unit := do
  match ← x.attempt with
  | .error .outOfFuel => outOfFuel
  | _ => pure ()

/-- `f` is run on an error. -/
def caught (f : ε → Run ρ ε α) (x : Run ρ ε α) : Run ρ ε α := do
  match ← x.attempt with
  | .ok a => pure a
  | .error .outOfFuel => outOfFuel
  | .error (.error e) => f e

def joined (x : Run ρ ε ExecutionResult) : Run ρ ε (Spawned ε) :=
  caught (fun e => pure (.error e)) (.ok <$> x)

end Run

open Seahaven.Shell.Trapping.Run

/-! ## Traps -/

section

variable (r : Runner ρ ε)

/-- `Shell::invoke_trap_handler`. -/
def invokeTrapHandler (suppress : Bool) (signal : TrapSignal) : Run ρ ε ExecutionResult := do
  let s ← read id
  if s.activeTrapSignals.contains signal then pure .success
  else if 0 < s.trapDeliverySuppressCount then pure .success
  else if (s.inFunction || s.isSubshell) && !s.isTrapInheritedInCurrentScope signal then
    pure .success
  else
    match s.traps signal with
    | none => pure .success
    | some handler => do
      modify fun s => s.enterTrapHandler signal
      let result ← (r.runString suppress handler).attempt
      modify fun s => s.leaveTrapHandler signal
      modify fun s' => { s' with lastExitStatus := s.lastExitStatus }
      LoggedOp.check result

/-- Invokes the handler of a trap that has one. The run logs the trap, and nothing of what the
handler does. -/
def deliver (suppress : Bool) (signal : TrapSignal) : Run ρ ε Unit := fun s =>
  if (s.traps signal).isSome then
    let (answer, after, _) := invokeTrapHandler r suppress signal s
    (answer.map fun _ => (), after, [.trapped signal s (answer.toOption.map fun _ => after)])
  else (.ok (), s, [])

end

/-! ## Commands -/

section

variable (S : Setting ρ ε) (r : Runner ρ ε)

def report (e : ε) : Run ρ ε ExecutionResult :=
  change fun w => (.ok (S.intoResult e w.options), S.displayError e w)

def invokeCommandInSubshellAndGetOutput (suppress : Bool) (command : String) :
    Run ρ ε String := do
  let (answer, child) ← onClone S.rejoin
    (fun o => if o.commandSubstInheritsErrexit then o
      else { o with exitOnNonzeroCommandExit := false })
    (r.runSubstitutionCommand suppress command)
  let result ← LoggedOp.check answer
  setLastExitStatus result.exitCode
  pure (S.output child)

/-- Expands, with the command substitutions run one after another. -/
def Expansion.run (suppress : Bool) : Expansion ρ ε α → Run ρ ε α
  | done f => act f
  | substitute command next => do
    let command ← act command
    let output ← invokeCommandInSubshellAndGetOutput S r suppress command
    (next output).run suppress

def Builtin.execute (suppress : Bool) : Builtin ρ ε → Run ρ ε ExecutionResult
  | plain run => act run
  | evaluate text after => after <$> r.runString suppress text
  | trap signals handler => do
    modify fun s =>
      { s with traps := fun signal => if signal ∈ signals then handler else s.traps signal }
    pure .success

/-- What is done with the flow of a function, once its body has ended. -/
def handleFlow (result : ExecutionResult) : Except ε ExecutionResult :=
  match result.nextControlFlow with
  | .breakLoop _ => .error S.unimplemented
  | .continueLoop _ => .error S.unimplemented
  | .returnFromFunctionOrScript => .ok { result with nextControlFlow := .normal }
  | _ => .ok result

def invokeShellFunction (suppress : Bool) (number : Nat) (args : List String) :
    Run ρ ε ExecutionResult := do
  (S.functionRedirects number).run S r suppress
  let (depth, limit) ← read fun s => (s.functionCallDepth, s.world.options.maxFunctionCallDepth)
  if limit.any fun limit => limit ≤ depth then Run.check (.error S.maxFunctionCallDepthExceeded)
  else do
    change fun w => (.ok (), { w with rest := S.enterFunction number args w.rest })
    modify fun s => { s with functionCallDepth := s.functionCallDepth + 1 }
    let answer ← (r.callBody suppress number).attempt
    change S.leaveFunction
    modify fun s => { s with functionCallDepth := s.functionCallDepth - 1 }
    let result ← LoggedOp.check answer
    Run.check (handleFlow S result)

/-- `SimpleCommand::execute`. In a clone of its own a builtin is a task, which is waited for. -/
def Callee.execute (owned suppress : Bool) (args : List String) :
    Callee ρ ε → Run ρ ε (Spawned ε)
  | external run => act run
  | builtin body =>
    if owned then joined (body.execute r suppress) else .ok <$> body.execute r suppress
  | function number => .ok <$> invokeShellFunction S r suppress number args.tail

def onPreexecute (suppress : Bool) (args : List String) : Run ρ ε Unit := do
  change (S.noteCommand args)
  deliver r suppress .debug

def executeCommand (owned suppress : Bool) (scopedAssignments : Expansion ρ ε Unit)
    (args : List String) : Run ρ ε (Spawned ε) := do
  scopedAssignments.run S r suppress
  ignored (onPreexecute S r suppress args)
  let callee ← read fun s => S.dispatch args s.world
  let answer ← (callee.execute S r owned suppress args).attempt
  change fun w => (.ok (), S.afterCommand args w)
  LoggedOp.check answer

/-- Expands the words, and where there is no command applies the assignments. -/
def SimpleCommand.expand (suppress : Bool) (command : SimpleCommand ρ ε) :
    Run ρ ε (Option (List String)) := do
  let args ← command.words.run S r suppress
  if args = some [] then
    command.assignments.run S r suppress
    change fun w => (.ok (), S.clearLastArg w)
  pure args

/-- `execute_in_pipeline` of a simple command, once its words are expanded. -/
def SimpleCommand.conclude (owned suppress : Bool) (command : SimpleCommand ρ ε)
    (unchanged : Bool) : Option (List String) → Run ρ ε (Spawned ε)
  | none => pure (.ok ⟨.normal, 1⟩)
  | some [] => do
    if unchanged then setLastExitStatus 0
    let status ← read fun s => s.lastExitStatus
    pure (.ok ⟨.normal, status⟩)
  | some args => caught (fun e => .ok <$> report S e)
    (executeCommand S r owned suppress command.scopedAssignments args)

/-- `execute_in_pipeline` of a simple command. -/
def SimpleCommand.executeInPipeline (owned suppress : Bool) (command : SimpleCommand ρ ε) :
    Run ρ ε (Spawned ε) := do
  let (args, unchanged) ← counted (command.expand S r suppress)
  command.conclude S r owned suppress unchanged args

/-! ## Pipelines -/

def runInCurrentShell (options : Options) (len index : Nat) : Bool :=
  len == 1 || (index + 1 == len && options.runLastPipelineCmdInCurrentShell &&
    !options.enableJobControl)

/-- The loop of `wait_for_pipeline_processes_and_update_status`, with the last failure. -/
def waitFrom : List (Spawned ε) → ExecutionResult → Option UInt8 →
    Run ρ ε (ExecutionResult × Option UInt8)
  | [], result, lastFailure => pure (result, lastFailure)
  | child :: children, _, lastFailure => do
    let result ← Run.check child
    setLastExitStatus result.exitCode
    modify fun s =>
      { s with lastPipelineStatuses := s.lastPipelineStatuses ++ [result.exitCode] }
    LoggedOp.note (.returned result.exitCode)
    waitFrom children result (if result.isSuccess then lastFailure else some result.exitCode)

def waitForPipelineProcessesAndUpdateStatus (spawned : List (Spawned ε)) :
    Run ρ ε ExecutionResult := do
  modify fun s => { s with lastPipelineStatuses := [] }
  let (result, lastFailure) ← waitFrom spawned .success none
  let pipefail ← read fun s => s.world.options.returnLastFailureFromPipeline
  pure (if pipefail then { result with exitCode := lastFailure.getD result.exitCode } else result)

def inverted (bang : Bool) (result : ExecutionResult) : ExecutionResult :=
  if bang then { result with exitCode := if result.isSuccess then 1 else 0 } else result

/-- `Shell::apply_errexit_if_enabled`. -/
def applyErrexit (errexit : Bool) (result : ExecutionResult) : ExecutionResult :=
  if errexit && !result.isSuccess && result.isNormalFlow then
    { result with nextControlFlow := .exitShell }
  else result

/-- The end of `Pipeline::execute`, with the result after `!`. -/
def afterPipeline (suppress bang : Bool) (result : ExecutionResult) :
    Run ρ ε ExecutionResult := do
  setLastExitStatus result.exitCode
  if !result.isSuccess && !suppress && !bang then deliver r suppress .err
  let errexit ← read fun s => s.world.options.exitOnNonzeroCommandExit
  pure (if !suppress && !bang then applyErrexit errexit result else result)

def Commands.length : Commands ρ ε → Nat
  | nil => 0
  | cons _ rest => rest.length + 1

def AndOrs.isNil : AndOrs ρ ε → Bool
  | nil => true
  | cons .. => false

/-! ## The interpreter -/

/-- The condition of an arithmetic `for`, where there is one. -/
def holds (suppress : Bool) : Option (Expansion ρ ε Int) → Run ρ ε Bool
  | none => pure true
  | some condition => (· != 0) <$> condition.run S r suppress

def evalIfAny (suppress : Bool) : Option (Expansion ρ ε Int) → Run ρ ε Unit
  | none => pure ()
  | some expr => (fun _ => ()) <$> expr.run S r suppress

mutual

def CompoundList.execute (suppress : Bool) :
    CompoundList ρ ε → ExecutionResult → Run ρ ε ExecutionResult
  | .nil, result => pure result
  | .cons list runAsync rest, _ => do
    let result ←
      if runAsync then do
        let _ ← onClone S.rejoin (fun o => { o with interactive := false })
          (list.execute suppress)
        pure .success
      else do
        let result ← list.execute suppress
        setLastExitStatus result.exitCode
        pure result
    if result.isNormalFlow then rest.execute suppress result else pure result

def AndOrList.execute (suppress : Bool) : AndOrList ρ ε → Run ρ ε ExecutionResult
  | .mk first .nil => first.execute suppress
  | .mk first (.cons isAnd pipeline rest) => do
    let result ← first.execute true
    (AndOrs.cons isAnd pipeline rest).execute suppress result

def AndOrs.execute (suppress : Bool) : AndOrs ρ ε → ExecutionResult → Run ρ ε ExecutionResult
  | .nil, result => pure result
  | .cons isAnd pipeline rest, result =>
    if !result.isNormalFlow then pure result
    else if isAnd != result.isSuccess then rest.execute suppress result
    else do
      let result ← pipeline.execute (suppress || !rest.isNil)
      rest.execute suppress result

def Pipeline.execute (suppress : Bool) : Pipeline ρ ε → Run ρ ε ExecutionResult
  | .mk bang seq => do
    let spawned ← seq.spawn (suppress || bang) seq.length 0
    let result ← waitForPipelineProcessesAndUpdateStatus spawned
    afterPipeline r (suppress || bang) bang (inverted bang result)

/-- `spawn_pipeline_processes`. -/
def Commands.spawn (suppress : Bool) (len : Nat) :
    Nat → Commands ρ ε → Run ρ ε (List (Spawned ε))
  | _, .nil => pure []
  | index, .cons command rest => do
    let options ← read fun s => s.world.options
    let child ←
      if runInCurrentShell options len index then command.executeInPipeline false suppress
      else do
        let (answer, _) ← onClone S.rejoin id (command.executeInPipeline true suppress)
        LoggedOp.check answer
    let children ← rest.spawn suppress len (index + 1)
    pure (child :: children)

def Command.executeInPipeline (owned suppress : Bool) : Command ρ ε → Run ρ ε (Spawned ε)
  | .simple command => do
    let noExecute ← read fun s => s.world.options.doNotExecuteCommands
    if noExecute then pure (.ok .success)
    else command.executeInPipeline S r owned suppress
  | .compound redirects command => do
    let noExecute ← read fun s => s.world.options.doNotExecuteCommands
    if noExecute then pure (.ok .success)
    else do
      redirects.run S r suppress
      .ok <$> command.execute suppress
  | .function define => do
    let noExecute ← read fun s => s.world.options.doNotExecuteCommands
    if noExecute then pure (.ok .success)
    else do
      act define
      setLastExitStatus 0
      pure (.ok .success)
  | .extendedTest redirects test => do
    let noExecute ← read fun s => s.world.options.doNotExecuteCommands
    if noExecute then pure (.ok .success)
    else do
      redirects.run S r suppress
      let passed ← test.run S r suppress
      pure (.ok ⟨.normal, if passed then 0 else 1⟩)

def CompoundCommand.execute (suppress : Bool) : CompoundCommand ρ ε → Run ρ ε ExecutionResult
  | .braceGroup list => list.execute suppress .success
  | .subshell list => do
    let (answer, _) ← onClone S.rejoin id
      (caught (report S) (list.execute suppress .success))
    let result ← LoggedOp.check answer
    pure ⟨.normal, result.exitCode⟩
  | .forClause values assign body => do
    let expandedValues ← values.run S r suppress
    let result ← Steps.each (fun value _ => do
      act (assign value)
      let result ← body.execute suppress .success
      pure result.afterBody) expandedValues ExecutionResult.success
    setLastExitStatus result.exitCode
    pure result
  | .caseClause value cases => do
    let expandedValue ← value.run S r suppress
    let result ← cases.execute suppress expandedValue false .success
    setLastExitStatus result.exitCode
    pure result
  | .ifClause condition thenList elses => do
    let condition ← condition.execute true .success
    if !condition.isNormalFlow then pure condition
    else if condition.isSuccess then thenList.execute suppress .success
    else elses.execute suppress
  | .whileOrUntil kind condition body => do
    let result ← Steps.iterate outOfFuel (fun result => do
      let conditionResult ← condition.execute true .success
      setLastExitStatus conditionResult.exitCode
      if !conditionResult.isNormalFlow then pure (.inr conditionResult.tryDecrementLoopLevels)
      else if !kind.goesOn conditionResult.exitCode then pure (.inr result)
      else do
        let result ← body.execute suppress .success
        pure result.afterBody) r.rounds ExecutionResult.success
    setLastExitStatus result.exitCode
    pure result
  | .arithmetic expr => do
    let value ← expr.run S r suppress
    let result : ExecutionResult := ⟨.normal, if value != 0 then 0 else 1⟩
    setLastExitStatus result.exitCode
    pure result
  | .arithmeticFor initializer condition updater body => do
    evalIfAny S r suppress initializer
    let result ← Steps.iterate outOfFuel (fun result => do
      let goesOn ← holds S r suppress condition
      if !goesOn then pure (.inr result)
      else do
        let result ← body.execute suppress .success
        match result.afterBody with
        | .inr result => pure (.inr result)
        | .inl result => do
          evalIfAny S r suppress updater
          pure (.inl result)) r.rounds ExecutionResult.success
    setLastExitStatus result.exitCode
    pure result

def CaseItems.execute (suppress : Bool) (expandedValue : String) :
    CaseItems ρ ε → Bool → ExecutionResult → Run ρ ε ExecutionResult
  | .nil, _, result => pure result
  | .cons matching cmd postAction rest, forceExecuteNextCase, result => do
    let taken ← if forceExecuteNextCase then pure true
      else (matching expandedValue).run S r suppress
    if !taken then rest.execute suppress expandedValue false result
    else do
      let result ← cmd.execute suppress .success
      if !result.isNormalFlow then pure result
      else
        match postAction with
        | .exitCase => pure result
        | .unconditionallyExecuteNextCaseItem => rest.execute suppress expandedValue true result
        | .continueEvaluatingCases => rest.execute suppress expandedValue false result

def ElseClauses.execute (suppress : Bool) : ElseClauses ρ ε → Run ρ ε ExecutionResult
  | .nil => do
    setLastExitStatus 0
    pure .success
  | .elif condition body rest => do
    let elseConditionResult ← condition.execute true .success
    if !elseConditionResult.isNormalFlow then pure elseConditionResult
    else if elseConditionResult.isSuccess then body.execute suppress .success
    else rest.execute suppress
  | .otherwise body _ => body.execute suppress .success

end

/-- A complete command of a program, with whether the next one is run. Its error is displayed. -/
def executeComplete (suppress : Bool) (command : CompoundList ρ ε) :
    Run ρ ε (ExecutionResult ⊕ ExecutionResult) := do
  let result ← caught (report S) (command.execute S r suppress .success)
  setLastExitStatus result.exitCode
  pure (if result.isNormalFlow then .inl result else .inr result)

/-- `Program::execute`. -/
def Program.execute (suppress : Bool) (p : Program ρ ε) : Run ρ ε ExecutionResult :=
  Steps.each (fun command _ => executeComplete S r suppress command) p .success

/-- `Shell::run_string`: what does not parse sets the status of its error. -/
def runString (suppress : Bool) (command : String) : Run ρ ε ExecutionResult := do
  let options ← read fun s => s.world.options
  match S.parse options command with
  | .ok p => Program.execute S r suppress p
  | .error e => do
    let result ← report S e
    setLastExitStatus result.exitCode
    pure result

def runSubstitutionCommand (suppress : Bool) (command : String) : Run ρ ε ExecutionResult := do
  let options ← read fun s => s.world.options
  match (S.parse options command).toOption.bind S.bareInputRedir with
  | some redirect => do
    redirect.run S r suppress
    pure .success
  | none => runString S r suppress command

end

/-- What runs texts and functions to a depth. A text without commands needs none. -/
def runner (S : Setting ρ ε) : Nat → Runner ρ ε
  | 0 => {
    runString := fun _ command => do
      let options ← read fun s => s.world.options
      match S.parse options command with
      | .ok [] => pure .success
      | _ => outOfFuel
    runSubstitutionCommand := fun _ _ => outOfFuel
    callBody := fun _ _ => outOfFuel
    rounds := 0 }
  | n + 1 => {
    runString := runString S (runner S n)
    runSubstitutionCommand := runSubstitutionCommand S (runner S n)
    callBody := fun suppress number => (S.function number).execute S (runner S n) suppress
    rounds := n + 1 }

end Seahaven.Shell.Trapping
