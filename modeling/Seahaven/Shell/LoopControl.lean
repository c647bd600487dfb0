import Mathlib.Data.PNat.Basic
import Seahaven.Lib.Follow

/-!
# `break` and `continue`

A jump is answered as a count of loops (`ExecutionControlFlow`), which each loop takes down by one
on the way out. The reference meaning has no count: a jump names one of the enclosing loops, which
are numbered from the outside, and the loop that is named ends or goes round again.

1. `execute` of each kind of command is what `interp.rs` does; a loop goes round at most `fuel`
   times.
2. `meaning` is the reference, and logs the jumps that are made.
3. A jump is `Honoured` if the loops it asks for are there, if the `i8` of the builtin can hold
   their number, and if it does not resume a `while` or `until` from the condition of that loop.
4. Where every jump of a run is honoured, the interpreter does what the reference does
   (`Program.execute_follows`).
-/

namespace Seahaven.Shell.Interp

open Op

/-! ## Results -/

inductive ExecutionControlFlow
  | normal
  | breakLoop (levels : Nat)
  | continueLoop (levels : Nat)
  | returnFromFunctionOrScript
  | exitShell
  deriving DecidableEq

namespace ExecutionControlFlow

def tryDecrementLoopLevels : ExecutionControlFlow → ExecutionControlFlow
  | breakLoop 0 => normal
  | continueLoop 0 => normal
  | breakLoop (levels + 1) => breakLoop levels
  | continueLoop (levels + 1) => continueLoop levels
  | flow => flow

end ExecutionControlFlow

structure ExecutionResult where
  nextControlFlow : ExecutionControlFlow
  exitCode : UInt8
  deriving DecidableEq

namespace ExecutionResult

def success : ExecutionResult := ⟨.normal, 0⟩

/-- `ExecutionExitCode::InvalidUsage`. -/
def invalidUsage : ExecutionResult := ⟨.normal, 2⟩

variable (result : ExecutionResult)

def isSuccess : Bool := result.exitCode == 0

def isNormalFlow : Bool := result.nextControlFlow == .normal

def isBreak : Bool :=
  match result.nextControlFlow with
  | .breakLoop _ => true
  | _ => false

def isContinue : Bool :=
  match result.nextControlFlow with
  | .continueLoop _ => true
  | _ => false

def isReturnOrExit : Bool :=
  match result.nextControlFlow with
  | .returnFromFunctionOrScript => true
  | .exitShell => true
  | _ => false

def tryDecrementLoopLevels : ExecutionResult :=
  { result with nextControlFlow := result.nextControlFlow.tryDecrementLoopLevels }

end ExecutionResult

/-! ## Jumps -/

inductive JumpKind
  | breakLoop
  | continueLoop
  deriving DecidableEq

def JumpKind.flow : JumpKind → Nat → ExecutionControlFlow
  | breakLoop => .breakLoop
  | continueLoop => .continueLoop

/-- `BreakCommand` and `ContinueCommand`: `which_loop` is an `i8`, and an operand that is none is
refused when the arguments are parsed. -/
def JumpKind.execute (kind : JumpKind) (whichLoop : Nat) : ExecutionResult :=
  if 127 < whichLoop then .invalidUsage
  else if whichLoop ≤ 0 then .invalidUsage
  else { ExecutionResult.success with nextControlFlow := kind.flow (whichLoop - 1) }

/-! ## Programs -/

/-- Why a run has no result. -/
inductive Stop (ε : Type)
  | outOfFuel
  | error (e : ε)

/-- How a simple command that makes no jump ends. -/
inductive Ending
  | normal
  | returned
  | exited
  deriving DecidableEq

structure Status where
  ending : Ending
  exitCode : UInt8
  deriving DecidableEq

inductive WhileOrUntil
  | while
  | until
  deriving DecidableEq

inductive CaseItemPostAction
  | exitCase
  | unconditionallyExecuteNextCaseItem
  | continueEvaluatingCases
  deriving DecidableEq

/-- An `UnexpandedArithmeticExpr` and its evaluation. -/
structure ArithmeticExpr (σ ε : Type) where
  value : String
  eval : Op σ (Stop ε) Int

mutual

/-- `CompoundList`: and-or lists one after another. -/
inductive CompoundList (σ ε : Type) : Type
  | nil
  | cons (list : AndOrList σ ε) (rest : CompoundList σ ε)

inductive AndOrList (σ ε : Type) : Type
  | mk (first : Pipeline σ ε) (additional : AndOrs σ ε)

inductive AndOrs (σ ε : Type) : Type
  | nil
  | cons (isAnd : Bool) (pipeline : Pipeline σ ε) (rest : AndOrs σ ε)

/-- A pipeline of one command. -/
inductive Pipeline (σ ε : Type) : Type
  | mk (bang : Bool) (command : Command σ ε)

/-- `simple` is any simple command that makes no jump; it is told whether `errexit` is
suppressed. A function call is given by what is done on the way in, by the body of the function,
and by what is done on the way out. -/
inductive Command (σ ε : Type) : Type
  | simple (run : Bool → Op σ (Stop ε) Status)
  | jump (kind : JumpKind) (whichLoop : ℕ+)
  | functionCall (enter : Op σ (Stop ε) Unit) (body : Command σ ε) (leave : Op σ (Stop ε) Unit)
  | braceGroup (list : CompoundList σ ε)
  | forClause (values : Op σ (Stop ε) (List String)) (assign : String → Op σ (Stop ε) Unit)
    (body : CompoundList σ ε)
  | caseClause (value : Op σ (Stop ε) String) (cases : CaseItems σ ε)
  | ifClause (condition thenList : CompoundList σ ε) (elses : ElseClauses σ ε)
  | whileOrUntil (kind : WhileOrUntil) (condition body : CompoundList σ ε)
  | arithmeticFor (initializer condition updater : Option (ArithmeticExpr σ ε))
    (body : CompoundList σ ε)

/-- `matching` expands the patterns of the item one by one until one matches. -/
inductive CaseItems (σ ε : Type) : Type
  | nil
  | cons (matching : String → Op σ (Stop ε) Bool) (cmd : CompoundList σ ε)
    (postAction : CaseItemPostAction) (rest : CaseItems σ ε)

/-- An `elif` has a condition, an `else` has none. -/
inductive ElseClauses (σ ε : Type) : Type
  | nil
  | elif (condition body : CompoundList σ ε) (rest : ElseClauses σ ε)
  | otherwise (body : CompoundList σ ε) (rest : ElseClauses σ ε)

end

def AndOrs.isNil {σ ε : Type} : AndOrs σ ε → Bool
  | nil => true
  | cons .. => false

/-- `Program`: its complete commands. -/
abbrev Program (σ ε : Type) := List (CompoundList σ ε)

/-- What the shell does beside the commands. -/
structure Hooks (σ ε : Type) where
  setLastExitStatus : UInt8 → σ → σ
  setPipelineStatuses : List UInt8 → σ → σ
  /-- `do_not_execute_commands`. -/
  doNotExecuteCommands : σ → Bool
  /-- `exit_on_nonzero_command_exit`. -/
  exitOnNonzero : σ → Bool
  /-- Runs the handler of the `ERR` trap, if there is one. -/
  errTrap : Op σ (Stop ε) Unit
  /-- `display_error` and `into_result`. -/
  report : ε → σ → Status × σ
  /-- `unimp("break or continue returned from function invocation")`. -/
  unimplemented : ε

variable {σ ε : Type}

namespace Hooks

variable (h : Hooks σ ε)

def noteStatus (code : UInt8) : Op σ (Stop ε) Unit := fun s => (.ok (), h.setLastExitStatus code s)

def reported : Stop ε → Op σ (Stop ε) Status
  | .outOfFuel => check (.error .outOfFuel)
  | .error e => fun s => (.ok (h.report e s).1, (h.report e s).2)

/-- The end of `Pipeline::execute`: the status after `!`, and whether `errexit` asks for the shell
to be left if nothing else does. -/
def finish (suppress bang : Bool) (code : UInt8) : Op σ (Stop ε) (UInt8 × Bool) := do
  h.noteStatus code
  fun s => (.ok (), h.setPipelineStatuses [code] s)
  let code := if bang then (if code == 0 then 1 else 0) else code
  h.noteStatus code
  if code != 0 && !suppress && !bang then h.errTrap
  let errexit ← Op.read fun s => .ok (h.exitOnNonzero s)
  pure (code, errexit && code != 0 && !suppress && !bang)

end Hooks

/-! ## The interpreter -/

def Ending.flow : Ending → ExecutionControlFlow
  | normal => .normal
  | returned => .returnFromFunctionOrScript
  | exited => .exitShell

def Status.result (status : Status) : ExecutionResult := ⟨status.ending.flow, status.exitCode⟩

/-- What each of the loops does with the result of its body: it ends with a result, or goes on
with one. -/
def ExecutionResult.afterBody (result : ExecutionResult) : ExecutionResult ⊕ ExecutionResult :=
  if result.isReturnOrExit then .inr result
  else
    let isBreak := result.isBreak
    let result := result.tryDecrementLoopLevels
    if isBreak || result.isContinue then .inr result else .inl result

/-- Whether a `while` or `until` goes on after its condition. -/
def WhileOrUntil.goesOn (kind : WhileOrUntil) (code : UInt8) : Bool :=
  match kind with
  | .while => code == 0
  | .until => code != 0

/-- The condition of an arithmetic `for`: an empty one is true. -/
def holds : Option (ArithmeticExpr σ ε) → Op σ (Stop ε) Bool
  | none => pure true
  | some condition =>
    if condition.value.isEmpty then pure true
    else do
      let value ← condition.eval
      pure (value != 0)

def evalIfAny : Option (ArithmeticExpr σ ε) → Op σ (Stop ε) Unit
  | none => pure ()
  | some expr => do
    let _ ← expr.eval
    pure ()

/-- `Pipeline::execute`, once its command has ended. -/
def ExecutionResult.afterCommand (h : Hooks σ ε) (suppress bang : Bool)
    (result : ExecutionResult) : Op σ (Stop ε) ExecutionResult := do
  let (code, errexit) ← h.finish suppress bang result.exitCode
  if errexit && result.isNormalFlow then pure ⟨.exitShell, code⟩
  else pure ⟨result.nextControlFlow, code⟩

/-- Whether the commands of a `case` item are run. -/
def isTaken (force : Bool) (matching : Op σ (Stop ε) Bool) : Op σ (Stop ε) Bool :=
  if force then pure true else matching

/-- `invoke_shell_function`, once the body of the function has ended. -/
def ExecutionResult.afterFunction (h : Hooks σ ε) (result : ExecutionResult) :
    Op σ (Stop ε) ExecutionResult :=
  match result.nextControlFlow with
  | .breakLoop _ => check (.error (.error h.unimplemented))
  | .continueLoop _ => check (.error (.error h.unimplemented))
  | .returnFromFunctionOrScript => pure { result with nextControlFlow := .normal }
  | _ => pure result

mutual

def CompoundList.execute (h : Hooks σ ε) (fuel : Nat) (suppress : Bool) :
    CompoundList σ ε → ExecutionResult → Op σ (Stop ε) ExecutionResult
  | .nil, result => pure result
  | .cons list rest, _ => do
    let result ← list.execute h fuel suppress
    h.noteStatus result.exitCode
    if result.isNormalFlow then rest.execute h fuel suppress result else pure result

def AndOrList.execute (h : Hooks σ ε) (fuel : Nat) (suppress : Bool) :
    AndOrList σ ε → Op σ (Stop ε) ExecutionResult
  | .mk first .nil => first.execute h fuel suppress
  | .mk first (.cons isAnd pipeline rest) => do
    let result ← first.execute h fuel true
    (AndOrs.cons isAnd pipeline rest).execute h fuel suppress result

def AndOrs.execute (h : Hooks σ ε) (fuel : Nat) (suppress : Bool) :
    AndOrs σ ε → ExecutionResult → Op σ (Stop ε) ExecutionResult
  | .nil, result => pure result
  | .cons isAnd pipeline rest, result =>
    if !result.isNormalFlow then pure result
    else if isAnd != result.isSuccess then rest.execute h fuel suppress result
    else do
      let result ← pipeline.execute h fuel (suppress || !rest.isNil)
      rest.execute h fuel suppress result

def Pipeline.execute (h : Hooks σ ε) (fuel : Nat) (suppress : Bool) :
    Pipeline σ ε → Op σ (Stop ε) ExecutionResult
  | .mk bang command => do
    let noExecute ← Op.read fun s => .ok (h.doNotExecuteCommands s)
    if noExecute then ExecutionResult.success.afterCommand h suppress bang
    else do
      let result ← command.execute h fuel (suppress || bang)
      result.afterCommand h suppress bang

def Command.execute (h : Hooks σ ε) (fuel : Nat) (suppress : Bool) :
    Command σ ε → Op σ (Stop ε) ExecutionResult
  | .simple run => do
    let status ← run suppress
    pure status.result
  | .jump kind whichLoop => pure (kind.execute whichLoop)
  | .functionCall enter body leave =>
    handle (fun e => do
      let status ← h.reported e
      pure status.result) do
      enter
      let answer ← Op.attempt (body.execute h fuel suppress)
      leave
      let result ← Op.check answer
      result.afterFunction h
  | .braceGroup list => list.execute h fuel suppress .success
  | .forClause values assign body => do
    let expandedValues ← values
    let result ← Steps.each (fun value _ => do
      assign value
      let result ← body.execute h fuel suppress .success
      pure result.afterBody) expandedValues ExecutionResult.success
    h.noteStatus result.exitCode
    pure result
  | .caseClause value cases => do
    let expandedValue ← value
    let result ← cases.execute h fuel suppress expandedValue false .success
    h.noteStatus result.exitCode
    pure result
  | .ifClause condition thenList elses => do
    let condition ← condition.execute h fuel true .success
    if !condition.isNormalFlow then pure condition
    else if condition.isSuccess then thenList.execute h fuel suppress .success
    else elses.execute h fuel suppress
  | .whileOrUntil kind condition body => do
    let result ← Steps.iterate (Op.check (.error .outOfFuel)) (fun result => do
      let conditionResult ← condition.execute h fuel true .success
      h.noteStatus conditionResult.exitCode
      if !conditionResult.isNormalFlow then pure (.inr conditionResult.tryDecrementLoopLevels)
      else if !kind.goesOn conditionResult.exitCode then pure (.inr result)
      else do
        let result ← body.execute h fuel suppress .success
        pure result.afterBody) fuel ExecutionResult.success
    h.noteStatus result.exitCode
    pure result
  | .arithmeticFor initializer condition updater body => do
    evalIfAny initializer
    let result ← Steps.iterate (Op.check (.error .outOfFuel)) (fun result => do
      let goesOn ← holds condition
      if !goesOn then pure (.inr result)
      else do
        let result ← body.execute h fuel suppress .success
        match result.afterBody with
        | .inr result => pure (.inr result)
        | .inl result => do
          evalIfAny updater
          pure (.inl result)) fuel ExecutionResult.success
    h.noteStatus result.exitCode
    pure result

def CaseItems.execute (h : Hooks σ ε) (fuel : Nat) (suppress : Bool) (expandedValue : String) :
    CaseItems σ ε → Bool → ExecutionResult → Op σ (Stop ε) ExecutionResult
  | .nil, _, result => pure result
  | .cons matching cmd postAction rest, forceExecuteNextCase, result => do
    let taken ← isTaken forceExecuteNextCase (matching expandedValue)
    if !taken then rest.execute h fuel suppress expandedValue false result
    else do
      let result ← cmd.execute h fuel suppress .success
      if !result.isNormalFlow then pure result
      else
        match postAction with
        | .exitCase => pure result
        | .unconditionallyExecuteNextCaseItem =>
          rest.execute h fuel suppress expandedValue true result
        | .continueEvaluatingCases => rest.execute h fuel suppress expandedValue false result

def ElseClauses.execute (h : Hooks σ ε) (fuel : Nat) (suppress : Bool) :
    ElseClauses σ ε → Op σ (Stop ε) ExecutionResult
  | .nil => do
    h.noteStatus 0
    pure .success
  | .elif condition body rest => do
    let elseConditionResult ← condition.execute h fuel true .success
    if !elseConditionResult.isNormalFlow then pure elseConditionResult
    else if elseConditionResult.isSuccess then body.execute h fuel suppress .success
    else rest.execute h fuel suppress
  | .otherwise body _ => body.execute h fuel suppress .success

end

/-- `Program::execute`: an error of a complete command is reported, and the next one is run. -/
def Program.execute (h : Hooks σ ε) (fuel : Nat) (p : Program σ ε) :
    Op σ (Stop ε) ExecutionResult :=
  Steps.each (fun command _ => do
    let result ← handle (fun e => do
      let status ← h.reported e
      pure status.result) (command.execute h fuel false .success)
    h.noteStatus result.exitCode
    if result.isNormalFlow then pure (.inl result) else pure (.inr result)) p .success

/-! ## The reference -/

/-- The part of a loop a command is in. -/
inductive Place
  | body
  | condition
  deriving DecidableEq

/-- Where a run goes on: behind the command, or at one of the `depth` enclosing loops, which is
left or resumed; loop `0` is the outermost. -/
inductive Target (depth : Nat)
  | next
  | loop (kind : JumpKind) (index : Fin depth)
  | returned
  | exited
  deriving DecidableEq

structure Outcome (depth : Nat) where
  target : Target depth
  exitCode : UInt8
  deriving DecidableEq

def Outcome.success {depth : Nat} : Outcome depth := ⟨.next, 0⟩

/-- A jump goes to loop `n` from the inside, or to the outermost one if there are not as many.
Outside of all loops it does nothing. -/
def JumpKind.target (kind : JumpKind) (n : ℕ+) : (depth : Nat) → Target depth
  | 0 => .next
  | depth + 1 => .loop kind ⟨depth + 1 - n, Nat.sub_lt (Nat.succ_pos depth) n.pos⟩

/-- A jump that is made: how many loops it asks for, and the place of the command in each of the
enclosing loops, from the inside. -/
structure Jump where
  kind : JumpKind
  whichLoop : ℕ+
  places : List Place

def Jump.Honoured (j : Jump) : Prop :=
  j.whichLoop ≤ j.places.length ∧ (j.whichLoop : Nat) ≤ 127 ∧
    ¬(j.kind = .continueLoop ∧ j.places[(j.whichLoop : Nat) - 1]? = some .condition)

instance (j : Jump) : Decidable j.Honoured :=
  inferInstanceAs (Decidable (_ ∧ _ ∧ ¬(_ ∧ _)))

abbrev Meaning (σ ε α : Type) := LoggedOp Jump σ (Stop ε) α

def Ending.target {depth : Nat} : Ending → Target depth
  | normal => .next
  | returned => .returned
  | exited => .exited

def Status.outcome {depth : Nat} (status : Status) : Outcome depth :=
  ⟨status.ending.target, status.exitCode⟩

/-- What becomes of a loop when its body or its condition has ended: it goes round again, or it
ends. -/
def Outcome.turn {depth : Nat} (outcome : Outcome (depth + 1)) : Outcome depth ⊕ Outcome depth :=
  match outcome.target with
  | .next => .inl ⟨.next, outcome.exitCode⟩
  | .returned => .inr ⟨.returned, outcome.exitCode⟩
  | .exited => .inr ⟨.exited, outcome.exitCode⟩
  | .loop kind index =>
    if houter : index.val < depth then .inr ⟨.loop kind ⟨index, houter⟩, outcome.exitCode⟩
    else
      match kind with
      | .breakLoop => .inr ⟨.next, outcome.exitCode⟩
      | .continueLoop => .inl ⟨.next, outcome.exitCode⟩

/-- A pipeline whose command has ended: `errexit` leaves the shell if nothing else is asked for. -/
def Outcome.afterCommand {depth : Nat} (h : Hooks σ ε) (suppress bang : Bool)
    (outcome : Outcome depth) : Meaning σ ε (Outcome depth) := do
  let (code, errexit) ← (h.finish suppress bang outcome.exitCode).unlogged
  if errexit && decide (outcome.target = .next) then pure ⟨.exited, code⟩
  else pure ⟨outcome.target, code⟩

def Outcome.afterFunction {depth : Nat} (outcome : Outcome 0) : Outcome depth :=
  match outcome.target with
  | .next => ⟨.next, outcome.exitCode⟩
  | .returned => ⟨.next, outcome.exitCode⟩
  | .exited => ⟨.exited, outcome.exitCode⟩

mutual

def CompoundList.meaning (h : Hooks σ ε) (fuel : Nat) (suppress : Bool) :
    CompoundList σ ε → (places : List Place) → Outcome places.length →
      Meaning σ ε (Outcome places.length)
  | .nil, _, outcome => pure outcome
  | .cons list rest, places, _ => do
    let outcome ← list.meaning h fuel suppress places
    (h.noteStatus outcome.exitCode).unlogged
    if outcome.target = .next then rest.meaning h fuel suppress places outcome else pure outcome

def AndOrList.meaning (h : Hooks σ ε) (fuel : Nat) (suppress : Bool) :
    AndOrList σ ε → (places : List Place) → Meaning σ ε (Outcome places.length)
  | .mk first .nil, places => first.meaning h fuel suppress places
  | .mk first (.cons isAnd pipeline rest), places => do
    let outcome ← first.meaning h fuel true places
    (AndOrs.cons isAnd pipeline rest).meaning h fuel suppress places outcome

def AndOrs.meaning (h : Hooks σ ε) (fuel : Nat) (suppress : Bool) :
    AndOrs σ ε → (places : List Place) → Outcome places.length →
      Meaning σ ε (Outcome places.length)
  | .nil, _, outcome => pure outcome
  | .cons isAnd pipeline rest, places, outcome =>
    if outcome.target ≠ .next then pure outcome
    else if isAnd != (outcome.exitCode == 0) then rest.meaning h fuel suppress places outcome
    else do
      let outcome ← pipeline.meaning h fuel (suppress || !rest.isNil) places
      rest.meaning h fuel suppress places outcome

def Pipeline.meaning (h : Hooks σ ε) (fuel : Nat) (suppress : Bool) :
    Pipeline σ ε → (places : List Place) → Meaning σ ε (Outcome places.length)
  | .mk bang command, places => do
    let noExecute ← (Op.read fun s => .ok (h.doNotExecuteCommands s)).unlogged
    if noExecute then Outcome.success.afterCommand h suppress bang
    else do
      let outcome ← command.meaning h fuel (suppress || bang) places
      outcome.afterCommand h suppress bang

def Command.meaning (h : Hooks σ ε) (fuel : Nat) (suppress : Bool) :
    Command σ ε → (places : List Place) → Meaning σ ε (Outcome places.length)
  | .simple run, _ => do
    let status ← (run suppress).unlogged
    pure status.outcome
  | .jump kind whichLoop, places => do
    LoggedOp.note ⟨kind, whichLoop, places⟩
    pure ⟨kind.target whichLoop places.length, 0⟩
  | .functionCall enter body leave, _ =>
    LoggedOp.handle (fun e => do
      let status ← (h.reported e).unlogged
      pure status.outcome) do
      enter.unlogged
      let answer ← (body.meaning h fuel suppress []).attempt
      leave.unlogged
      let outcome ← LoggedOp.check answer
      pure outcome.afterFunction
  | .braceGroup list, places => list.meaning h fuel suppress places .success
  | .forClause values assign body, places => do
    let expandedValues ← values.unlogged
    let outcome ← Steps.each (fun value _ => do
      (assign value).unlogged
      let outcome ← body.meaning h fuel suppress (.body :: places) .success
      pure outcome.turn) expandedValues Outcome.success
    (h.noteStatus outcome.exitCode).unlogged
    pure outcome
  | .caseClause value cases, places => do
    let expandedValue ← value.unlogged
    let outcome ← cases.meaning h fuel suppress expandedValue places false .success
    (h.noteStatus outcome.exitCode).unlogged
    pure outcome
  | .ifClause condition thenList elses, places => do
    let condition ← condition.meaning h fuel true places .success
    if condition.target ≠ .next then pure condition
    else if condition.exitCode == 0 then thenList.meaning h fuel suppress places .success
    else elses.meaning h fuel suppress places
  | .whileOrUntil kind condition body, places => do
    let outcome ← Steps.iterate (LoggedOp.check (.error .outOfFuel)) (fun outcome => do
      let tested ← condition.meaning h fuel true (.condition :: places) .success
      (h.noteStatus tested.exitCode).unlogged
      if tested.target ≠ .next then pure tested.turn
      else if !kind.goesOn tested.exitCode then pure (.inr outcome)
      else do
        let outcome ← body.meaning h fuel suppress (.body :: places) .success
        pure outcome.turn) fuel Outcome.success
    (h.noteStatus outcome.exitCode).unlogged
    pure outcome
  | .arithmeticFor initializer condition updater body, places => do
    (evalIfAny initializer).unlogged
    let outcome ← Steps.iterate (LoggedOp.check (.error .outOfFuel)) (fun outcome => do
      let goesOn ← (holds condition).unlogged
      if !goesOn then pure (.inr outcome)
      else do
        let outcome ← body.meaning h fuel suppress (.body :: places) .success
        match outcome.turn with
        | .inr outcome => pure (.inr outcome)
        | .inl outcome => do
          (evalIfAny updater).unlogged
          pure (.inl outcome)) fuel Outcome.success
    (h.noteStatus outcome.exitCode).unlogged
    pure outcome

def CaseItems.meaning (h : Hooks σ ε) (fuel : Nat) (suppress : Bool) (expandedValue : String) :
    CaseItems σ ε → (places : List Place) → Bool → Outcome places.length →
      Meaning σ ε (Outcome places.length)
  | .nil, _, _, outcome => pure outcome
  | .cons matching cmd postAction rest, places, forceExecuteNextCase, outcome => do
    let taken ← (isTaken forceExecuteNextCase (matching expandedValue)).unlogged
    if !taken then rest.meaning h fuel suppress expandedValue places false outcome
    else do
      let outcome ← cmd.meaning h fuel suppress places .success
      if outcome.target ≠ .next then pure outcome
      else
        match postAction with
        | .exitCase => pure outcome
        | .unconditionallyExecuteNextCaseItem =>
          rest.meaning h fuel suppress expandedValue places true outcome
        | .continueEvaluatingCases => rest.meaning h fuel suppress expandedValue places false outcome

def ElseClauses.meaning (h : Hooks σ ε) (fuel : Nat) (suppress : Bool) :
    ElseClauses σ ε → (places : List Place) → Meaning σ ε (Outcome places.length)
  | .nil, _ => do
    (h.noteStatus 0).unlogged
    pure .success
  | .elif condition body rest, places => do
    let tested ← condition.meaning h fuel true places .success
    if tested.target ≠ .next then pure tested
    else if tested.exitCode == 0 then body.meaning h fuel suppress places .success
    else rest.meaning h fuel suppress places
  | .otherwise body _, places => body.meaning h fuel suppress places .success

end

/-- The reference meaning of a program. -/
def Program.meaning (h : Hooks σ ε) (fuel : Nat) (p : Program σ ε) : Meaning σ ε (Outcome 0) :=
  Steps.each (fun command _ => do
    let outcome ← LoggedOp.handle (fun e => do
      let status ← (h.reported e).unlogged
      pure status.outcome) (command.meaning h fuel false [] .success)
    (h.noteStatus outcome.exitCode).unlogged
    if outcome.target = .next then pure (.inl outcome) else pure (.inr outcome)) p .success

/-! ## Levels -/

def Target.flow {depth : Nat} : Target depth → ExecutionControlFlow
  | next => .normal
  | loop kind index => kind.flow (depth - 1 - index)
  | returned => .returnFromFunctionOrScript
  | exited => .exitShell

/-- A `while` or `until` is not resumed from its condition. -/
def Target.Allowed (places : List Place) (target : Target places.length) : Prop :=
  ∀ index, target = .loop .continueLoop index →
    places[places.length - 1 - index.val]? ≠ some .condition

def Represents (places : List Place) (outcome : Outcome places.length)
    (result : ExecutionResult) : Prop :=
  result = ⟨outcome.target.flow, outcome.exitCode⟩ ∧ outcome.target.Allowed places

theorem Target.flow_eq_normal {depth : Nat} {target : Target depth} :
    target.flow = .normal ↔ target = .next := by
  cases target with
  | loop kind index => cases kind <;> simp [flow, JumpKind.flow]
  | _ => simp [flow]

section

variable {places : List Place} {outcome : Outcome places.length} {result : ExecutionResult}

theorem Represents.isNormalFlow (hrep : Represents places outcome result) :
    result.isNormalFlow = decide (outcome.target = .next) := by
  rw [hrep.1, Bool.eq_iff_iff, decide_eq_true_iff, ← Target.flow_eq_normal]
  exact beq_iff_eq

theorem Represents.isSuccess (hrep : Represents places outcome result) :
    result.isSuccess = (outcome.exitCode == 0) := by
  rw [hrep.1]
  rfl

theorem Represents.exitCode (hrep : Represents places outcome result) :
    result.exitCode = outcome.exitCode := by
  rw [hrep.1]

theorem represents_of_ne_loop {target : Target places.length} {code : UInt8}
    (h : ∀ kind index, target ≠ .loop kind index) :
    Represents places ⟨target, code⟩ ⟨target.flow, code⟩ :=
  ⟨rfl, fun index htarget => absurd htarget (h .continueLoop index)⟩

theorem represents_next (code : UInt8) : Represents places ⟨.next, code⟩ ⟨.normal, code⟩ :=
  @represents_of_ne_loop _ .next code nofun

theorem represents_success : Represents places .success .success := represents_next 0

theorem represents_status (status : Status) :
    Represents places status.outcome status.result := by
  rcases status with ⟨ending, code⟩
  cases ending <;> exact represents_of_ne_loop nofun

end

theorem Jump.Honoured.represents {kind : JumpKind} {n : ℕ+} {places : List Place}
    (h : Honoured ⟨kind, n, places⟩) :
    Represents places ⟨kind.target n places.length, 0⟩ (kind.execute n) := by
  obtain ⟨hdepth, hbyte, hcondition⟩ := h
  have hpos := n.pos
  cases places with
  | nil => exact absurd hdepth (Nat.not_le.2 hpos)
  | cons place places =>
    change (n : Nat) ≤ places.length + 1 at hdepth
    change (n : Nat) ≤ 127 at hbyte
    have hlevels : (place :: places).length - 1 - (places.length + 1 - n) = (n : Nat) - 1 := by
      rw [List.length_cons]
      omega
    constructor
    · change kind.execute n = ⟨kind.flow ((place :: places).length - 1 - _), 0⟩
      rw [hlevels, JumpKind.execute, if_neg (by omega), if_neg (by omega)]
      rfl
    · intro index htarget
      obtain ⟨rfl, rfl⟩ := Target.loop.inj htarget
      rw [hlevels]
      exact fun hplace => hcondition ⟨rfl, hplace⟩

theorem Target.Allowed.outer {place : Place} {places : List Place} {kind : JumpKind}
    {index : Fin (places.length + 1)} (houter : index.val < places.length)
    (h : Allowed (place :: places) (.loop kind index)) :
    Allowed places (.loop kind ⟨index, houter⟩) := by
  intro i htarget
  obtain ⟨rfl, rfl⟩ := Target.loop.inj htarget
  have hplace := h index rfl
  have hsucc : (place :: places).length - 1 - index.val = places.length - 1 - index.val + 1 := by
    rw [List.length_cons]
    omega
  rwa [hsucc, List.getElem?_cons_succ] at hplace

theorem tryDecrement_flow {depth : Nat} {kind : JumpKind} {index : Fin (depth + 1)} :
    (kind.flow (depth + 1 - 1 - index)).tryDecrementLoopLevels =
      if index.val < depth then kind.flow (depth - 1 - index) else .normal := by
  split_ifs with houter
  · have hsucc : depth + 1 - 1 - index.val = depth - 1 - index.val + 1 := by omega
    rw [hsucc]
    cases kind <;> rfl
  · have hzero : depth + 1 - 1 - index.val = 0 := by omega
    rw [hzero]
    cases kind <;> rfl

theorem afterBody_flow (kind : JumpKind) (levels : Nat) (code : UInt8) :
    ExecutionResult.afterBody ⟨kind.flow levels, code⟩ =
      if kind = .continueLoop ∧ levels = 0 then .inl ⟨.normal, code⟩
      else .inr ⟨(kind.flow levels).tryDecrementLoopLevels, code⟩ := by
  cases kind <;> cases levels <;> rfl

section

variable {places : List Place} {result : ExecutionResult}

theorem Represents.follows_ite {α β : Type} {S : α → β → Prop} {outcome : Outcome places.length}
    {y y' : Meaning σ ε α} {x x' : Op σ (Stop ε) β} (hrep : Represents places outcome result)
    (helse : outcome.target ≠ .next → Follows Jump.Honoured S y x)
    (hnext : outcome.target = .next → Follows Jump.Honoured S y' x') :
    Follows Jump.Honoured S (if outcome.target ≠ .next then y else y')
      (if !result.isNormalFlow then x else x') := by
  rw [hrep.isNormalFlow]
  by_cases htarget : outcome.target = .next
  · simp only [htarget, ne_eq, not_true_eq_false, if_false, decide_true, Bool.not_true,
      Bool.false_eq_true]
    exact hnext htarget
  · simp only [htarget, ne_eq, not_false_eq_true, if_true, decide_false, Bool.not_false]
    exact helse htarget

/-- **Bodies.** After its body a loop ends or goes round again as the reference says. -/
theorem Represents.afterBody {outcome : Outcome (places.length + 1)}
    (h : Represents (.body :: places) outcome result) :
    Sum.LiftRel (Represents places) (Represents places) outcome.turn result.afterBody := by
  obtain ⟨rfl, hallowed⟩ := h
  obtain ⟨target, code⟩ := outcome
  cases target with
  | next => exact .inl (represents_next code)
  | returned => exact .inr (represents_of_ne_loop nofun)
  | exited => exact .inr (represents_of_ne_loop nofun)
  | loop kind index =>
    change Sum.LiftRel _ _ _
      (ExecutionResult.afterBody ⟨kind.flow (places.length + 1 - 1 - index), code⟩)
    rw [afterBody_flow, tryDecrement_flow]
    unfold Outcome.turn
    by_cases houter : index.val < places.length
    · rw [if_neg (by omega), if_pos houter]
      simp only [houter, dite_true]
      exact .inr ⟨rfl, hallowed.outer houter⟩
    · simp only [houter, dite_false, if_false]
      cases kind with
      | breakLoop =>
        rw [if_neg (by simp)]
        exact .inr (represents_next code)
      | continueLoop =>
        have hinner : places.length + 1 - 1 - index.val = 0 := by omega
        rw [if_pos (And.intro rfl hinner)]
        exact .inl (represents_next code)

/-- **Conditions.** A loop ends after a jump out of its condition, which is not one that resumes
it. -/
theorem Represents.afterCondition {outcome : Outcome (places.length + 1)}
    (h : Represents (.condition :: places) outcome result) (hjump : outcome.target ≠ .next) :
    Sum.LiftRel (Represents places) (Represents places) outcome.turn
      (.inr result.tryDecrementLoopLevels) := by
  obtain ⟨rfl, hallowed⟩ := h
  obtain ⟨target, code⟩ := outcome
  cases target with
  | next => exact absurd rfl hjump
  | returned => exact .inr (represents_of_ne_loop nofun)
  | exited => exact .inr (represents_of_ne_loop nofun)
  | loop kind index =>
    change Sum.LiftRel _ _ _
      (.inr (ExecutionResult.mk
        (kind.flow (places.length + 1 - 1 - index)).tryDecrementLoopLevels code))
    rw [tryDecrement_flow]
    unfold Outcome.turn
    by_cases houter : index.val < places.length
    · rw [if_pos houter]
      simp only [houter, dite_true]
      exact .inr ⟨rfl, hallowed.outer houter⟩
    · simp only [houter, dite_false, if_false]
      cases kind with
      | breakLoop => exact .inr (represents_next code)
      | continueLoop =>
        refine absurd ?_ (hallowed index rfl)
        have hinner : (Place.condition :: places).length - 1 - index.val = 0 := by
          rw [List.length_cons]
          omega
        rw [hinner]
        rfl

theorem Represents.afterCommand {outcome : Outcome places.length}
    (hrep : Represents places outcome result) (h : Hooks σ ε) (suppress bang : Bool) :
    Follows Jump.Honoured (Represents places) (outcome.afterCommand h suppress bang)
      (result.afterCommand h suppress bang) := by
  unfold Outcome.afterCommand ExecutionResult.afterCommand
  rw [hrep.exitCode, hrep.isNormalFlow]
  refine (follows_unlogged _).bind_eq fun (code, errexit) => ?_
  refine Follows.ite (fun _ => follows_pure (represents_of_ne_loop nofun)) fun _ => ?_
  refine follows_pure ⟨?_, hrep.2⟩
  rw [hrep.1]

theorem Represents.afterFunction {outcome : Outcome 0} (h : Represents [] outcome result)
    (hooks : Hooks σ ε) :
    Follows Jump.Honoured (Represents places)
      (pure outcome.afterFunction : Meaning σ ε (Outcome places.length))
      (result.afterFunction hooks) := by
  obtain ⟨rfl, -⟩ := h
  obtain ⟨target, code⟩ := outcome
  cases target with
  | next => exact follows_pure (represents_next code)
  | returned => exact follows_pure (represents_next code)
  | exited => exact follows_pure (represents_of_ne_loop nofun)
  | loop kind index => exact index.elim0

end

/-! ## Runs -/

theorem follows_reported (h : Hooks σ ε) (places : List Place) (e : Stop ε) :
    Follows Jump.Honoured (Represents places)
      (do
        let status ← (h.reported e).unlogged
        pure status.outcome : Meaning σ ε (Outcome places.length))
      (do
        let status ← h.reported e
        pure status.result) :=
  (follows_unlogged _).bind_eq fun status => follows_pure (represents_status status)

theorem Follows.noted {h : Hooks σ ε} {places : List Place}
    {y : Meaning σ ε (Outcome places.length)} {x : Op σ (Stop ε) ExecutionResult}
    (hfollows : Follows Jump.Honoured (Represents places) y x) :
    Follows Jump.Honoured (Represents places)
      (do
        let outcome ← y
        (h.noteStatus outcome.exitCode).unlogged
        pure outcome)
      (do
        let result ← x
        h.noteStatus result.exitCode
        pure result) := by
  refine hfollows.bind fun outcome result hrep => ?_
  rw [hrep.exitCode]
  exact (follows_unlogged _).bind_eq fun _ => follows_pure hrep

mutual

theorem CompoundList.follows (h : Hooks σ ε) (fuel : Nat) :
    ∀ (c : CompoundList σ ε) (suppress : Bool) (places : List Place)
      (outcome : Outcome places.length) (result : ExecutionResult),
      Represents places outcome result →
        Follows Jump.Honoured (Represents places) (c.meaning h fuel suppress places outcome)
          (c.execute h fuel suppress result)
  | .nil, _, _, _, _, hrep => follows_pure hrep
  | .cons list rest, suppress, places, _, _, _ => by
    rw [CompoundList.meaning, CompoundList.execute]
    refine (AndOrList.follows h fuel list suppress places).bind fun outcome result hrep => ?_
    rw [hrep.exitCode]
    refine (follows_unlogged _).bind_eq fun _ => ?_
    rw [hrep.isNormalFlow]
    by_cases hnext : outcome.target = .next
    · simp only [hnext, if_true, decide_true]
      exact CompoundList.follows h fuel rest suppress places outcome result hrep
    · simp only [hnext, if_false, decide_false, Bool.false_eq_true]
      exact follows_pure hrep

theorem AndOrList.follows (h : Hooks σ ε) (fuel : Nat) :
    ∀ (list : AndOrList σ ε) (suppress : Bool) (places : List Place),
      Follows Jump.Honoured (Represents places) (list.meaning h fuel suppress places)
        (list.execute h fuel suppress)
  | .mk first .nil, suppress, places => Pipeline.follows h fuel first suppress places
  | .mk first (.cons isAnd pipeline rest), suppress, places =>
    (Pipeline.follows h fuel first true places).bind fun outcome result hrep =>
      AndOrs.follows h fuel (.cons isAnd pipeline rest) suppress places outcome result hrep

theorem AndOrs.follows (h : Hooks σ ε) (fuel : Nat) :
    ∀ (additional : AndOrs σ ε) (suppress : Bool) (places : List Place)
      (outcome : Outcome places.length) (result : ExecutionResult),
      Represents places outcome result →
        Follows Jump.Honoured (Represents places)
          (additional.meaning h fuel suppress places outcome)
          (additional.execute h fuel suppress result)
  | .nil, _, _, _, _, hrep => follows_pure hrep
  | .cons isAnd pipeline rest, suppress, places, outcome, result, hrep => by
    rw [AndOrs.meaning, AndOrs.execute, hrep.isSuccess]
    refine hrep.follows_ite (fun _ => follows_pure hrep) fun _ => ?_
    refine Follows.ite (fun _ => AndOrs.follows h fuel rest suppress places _ _ hrep) fun _ => ?_
    exact (Pipeline.follows h fuel pipeline _ places).bind fun _ _ hrep =>
      AndOrs.follows h fuel rest suppress places _ _ hrep

theorem Pipeline.follows (h : Hooks σ ε) (fuel : Nat) :
    ∀ (pipeline : Pipeline σ ε) (suppress : Bool) (places : List Place),
      Follows Jump.Honoured (Represents places) (pipeline.meaning h fuel suppress places)
        (pipeline.execute h fuel suppress)
  | .mk bang command, suppress, places => by
    rw [Pipeline.meaning, Pipeline.execute]
    refine (follows_unlogged _).bind_eq fun noExecute => ?_
    refine Follows.ite (fun _ => represents_success.afterCommand h suppress bang) fun _ => ?_
    exact (Command.follows h fuel command _ places).bind fun _ _ hrep =>
      hrep.afterCommand h suppress bang

theorem Command.follows (h : Hooks σ ε) (fuel : Nat) :
    ∀ (command : Command σ ε) (suppress : Bool) (places : List Place),
      Follows Jump.Honoured (Represents places) (command.meaning h fuel suppress places)
        (command.execute h fuel suppress)
  | .simple run, suppress, places =>
    (follows_unlogged (run suppress)).bind_eq fun status => follows_pure (represents_status status)
  | .jump kind whichLoop, _, places => follows_note Jump.Honoured.represents
  | .functionCall enter body leave, suppress, places => by
    rw [Command.meaning, Command.execute]
    refine Follows.handle ?_ (follows_reported h places)
    refine (follows_unlogged enter).bind_eq fun _ => ?_
    refine (Command.follows h fuel body suppress []).attempt.bind fun _ _ hans => ?_
    refine (follows_unlogged leave).bind_eq fun _ => ?_
    exact (follows_check hans).bind fun _ _ hrep => hrep.afterFunction h
  | .braceGroup list, suppress, places =>
    CompoundList.follows h fuel list suppress places _ _ represents_success
  | .forClause values assign body, suppress, places => by
    rw [Command.meaning, Command.execute]
    refine (follows_unlogged values).bind_eq fun words => Follows.noted ?_
    refine Follows.each (fun word _ _ _ => ?_) words represents_success
    refine (follows_unlogged (assign word)).bind_eq fun _ => ?_
    exact (CompoundList.follows h fuel body suppress (.body :: places) _ _
      represents_success).bind fun _ _ hrep => follows_pure hrep.afterBody
  | .caseClause value cases, suppress, places => by
    rw [Command.meaning, Command.execute]
    refine (follows_unlogged value).bind_eq fun word => Follows.noted ?_
    exact CaseItems.follows h fuel cases suppress word places false _ _ represents_success
  | .ifClause condition thenList elses, suppress, places => by
    rw [Command.meaning, Command.execute]
    refine (CompoundList.follows h fuel condition true places _ _ represents_success).bind
      fun outcome result hrep => ?_
    rw [hrep.isSuccess]
    refine hrep.follows_ite (fun _ => follows_pure hrep) fun _ => ?_
    exact Follows.ite
      (fun _ => CompoundList.follows h fuel thenList suppress places _ _ represents_success)
      fun _ => ElseClauses.follows h fuel elses suppress places
  | .whileOrUntil kind condition body, suppress, places => by
    rw [Command.meaning, Command.execute]
    refine Follows.noted ?_
    refine Follows.iterate (follows_fail _) (fun _ _ hlast => ?_) fuel represents_success
    refine (CompoundList.follows h fuel condition true (.condition :: places) _ _
      represents_success).bind fun tested result hrep => ?_
    rw [hrep.exitCode]
    refine (follows_unlogged _).bind_eq fun _ => ?_
    refine hrep.follows_ite (fun hjump => follows_pure (hrep.afterCondition hjump)) fun _ => ?_
    refine Follows.ite (fun _ => follows_pure (.inr hlast)) fun _ => ?_
    exact (CompoundList.follows h fuel body suppress (.body :: places) _ _
      represents_success).bind fun _ _ hrep => follows_pure hrep.afterBody
  | .arithmeticFor initializer condition updater body, suppress, places => by
    rw [Command.meaning, Command.execute]
    refine (follows_unlogged _).bind_eq fun _ => Follows.noted ?_
    refine Follows.iterate (follows_fail _) (fun _ _ hlast => ?_) fuel represents_success
    refine (follows_unlogged _).bind_eq fun goesOn => ?_
    refine Follows.ite (fun _ => follows_pure (.inr hlast)) fun _ => ?_
    refine (CompoundList.follows h fuel body suppress (.body :: places) _ _
      represents_success).bind fun outcome result hrep => ?_
    have hturn := hrep.afterBody
    generalize outcome.turn = t at hturn ⊢
    generalize result.afterBody = r at hturn ⊢
    cases hturn with
    | inl hround => exact (follows_unlogged _).bind_eq fun _ => follows_pure (.inl hround)
    | inr hend => exact follows_pure (.inr hend)

theorem CaseItems.follows (h : Hooks σ ε) (fuel : Nat) :
    ∀ (cases : CaseItems σ ε) (suppress : Bool) (word : String) (places : List Place)
      (force : Bool) (outcome : Outcome places.length) (result : ExecutionResult),
      Represents places outcome result →
        Follows Jump.Honoured (Represents places)
          (cases.meaning h fuel suppress word places force outcome)
          (cases.execute h fuel suppress word force result)
  | .nil, _, _, _, _, _, _, hrep => follows_pure hrep
  | .cons matching cmd postAction rest, suppress, word, places, force, outcome, result, hrep => by
    rw [CaseItems.meaning, CaseItems.execute]
    refine (follows_unlogged _).bind_eq fun taken => ?_
    refine Follows.ite
      (fun _ => CaseItems.follows h fuel rest suppress word places false _ _ hrep) fun _ => ?_
    refine (CompoundList.follows h fuel cmd suppress places _ _ represents_success).bind
      fun outcome result hrep => ?_
    refine hrep.follows_ite (fun _ => follows_pure hrep) fun _ => ?_
    cases postAction with
    | exitCase => exact follows_pure hrep
    | unconditionallyExecuteNextCaseItem =>
      exact CaseItems.follows h fuel rest suppress word places true _ _ hrep
    | continueEvaluatingCases =>
      exact CaseItems.follows h fuel rest suppress word places false _ _ hrep

theorem ElseClauses.follows (h : Hooks σ ε) (fuel : Nat) :
    ∀ (elses : ElseClauses σ ε) (suppress : Bool) (places : List Place),
      Follows Jump.Honoured (Represents places) (elses.meaning h fuel suppress places)
        (elses.execute h fuel suppress)
  | .nil, _, _ => (follows_unlogged _).bind_eq fun _ => follows_pure represents_success
  | .elif condition body rest, suppress, places => by
    rw [ElseClauses.meaning, ElseClauses.execute]
    refine (CompoundList.follows h fuel condition true places _ _ represents_success).bind
      fun tested result hrep => ?_
    rw [hrep.isSuccess]
    refine hrep.follows_ite (fun _ => follows_pure hrep) fun _ => ?_
    exact Follows.ite
      (fun _ => CompoundList.follows h fuel body suppress places _ _ represents_success)
      fun _ => ElseClauses.follows h fuel rest suppress places
  | .otherwise body _, suppress, places =>
    CompoundList.follows h fuel body suppress places _ _ represents_success

end

/-- **Loop control.** If every jump a run of the reference makes is honoured, then the interpreter
ends as the reference does, in the state the reference ends in. -/
theorem Program.execute_eq_meaning (h : Hooks σ ε) (fuel : Nat) (p : Program σ ε) (s : σ)
    (hjumps : ∀ j ∈ (p.meaning h fuel s).2.2, j.Honoured) :
    p.execute h fuel s =
      ((p.meaning h fuel s).1.map fun outcome => ⟨outcome.target.flow, outcome.exitCode⟩,
        (p.meaning h fuel s).2.1) := by
  have hfollows : Follows Jump.Honoured (Represents []) (p.meaning h fuel) (p.execute h fuel) := by
    refine Follows.each (fun command _ _ _ => ?_) p represents_success
    refine Follows.bind (R := Represents []) ?_ fun outcome result hrep => ?_
    · refine Follows.handle ?_ (follows_reported h [])
      exact CompoundList.follows h fuel command false [] _ _ represents_success
    · rw [hrep.exitCode, hrep.isNormalFlow]
      refine (follows_unlogged _).bind_eq fun _ => ?_
      by_cases hnext : outcome.target = .next
      · simp only [hnext, if_true, decide_true]
        exact follows_pure (.inl hrep)
      · simp only [hnext, if_false, decide_false, Bool.false_eq_true]
        exact follows_pure (.inr hrep)
  obtain ⟨hans, hstate⟩ := hfollows s hjumps
  refine Prod.ext ?_ hstate.symm
  generalize (p.execute h fuel s).1 = r at hans ⊢
  generalize (p.meaning h fuel s).1 = o at hans ⊢
  cases hans with
  | error e => rfl
  | ok hrep => exact congrArg Except.ok hrep.1

/-! ## Jumps that do not do what they should -/

/-- A shell whose state is a counter. -/
def counting : Hooks Nat Unit where
  setLastExitStatus _ s := s
  setPipelineStatuses _ s := s
  doNotExecuteCommands _ := false
  exitOnNonzero _ := false
  errTrap := pure ()
  report _ s := (⟨.normal, 1⟩, s)
  unimplemented := ()

def listOf : List (Command Nat Unit) → CompoundList Nat Unit
  | [] => .nil
  | c :: cs => .cons (.mk (.mk false c) .nil) (listOf cs)

def tick : Command Nat Unit := .simple fun _ s => (.ok ⟨.normal, 0⟩, s + 1)

/-- `for _ in 1 2; do …; done`. -/
def forTwo (body : List (Command Nat Unit)) : Command Nat Unit :=
  .forClause (pure ["1", "2"]) (fun _ => pure ()) (listOf body)

theorem execute_eq_meaning_nested :
    Program.execute counting 2 [listOf [forTwo [tick, forTwo [tick, .jump .continueLoop 2, tick]]]]
      0 = (.ok ⟨.normal, 0⟩, 4) := by
  rw [Program.execute_eq_meaning _ _ _ _ (by decide)]
  rfl

/-- `[ n = 1 ]`. -/
def once : Command Nat Unit := .simple fun _ s => (.ok ⟨.normal, if s = 1 then 0 else 1⟩, s)

/-- `while tick; if [ n = 1 ]; then continue; fi; false; do :; done`. -/
def resumed : Command Nat Unit :=
  .whileOrUntil .while
    (listOf [tick, .ifClause (listOf [once]) (listOf [.jump .continueLoop 1]) .nil,
      .simple fun _ s => (.ok ⟨.normal, 1⟩, s)]) .nil

/-- `break 2` in a single loop keeps what is behind the loop from running, `continue` in the
condition of a loop ends the loop, and `break 128` leaves no loop. -/
theorem execute_ne_meaning :
    (Program.execute counting 2 [listOf [forTwo [.jump .breakLoop 2]], listOf [tick]] 0).2 = 0 ∧
      (Program.meaning counting 2 [listOf [forTwo [.jump .breakLoop 2]], listOf [tick]] 0).2.1 =
        1 ∧
      (Program.execute counting 2 [listOf [resumed]] 0).2 = 1 ∧
      (Program.meaning counting 2 [listOf [resumed]] 0).2.1 = 2 ∧
      (Program.execute counting 2 [listOf [forTwo [.jump .breakLoop 128, tick]]] 0).2 = 2 ∧
      (Program.meaning counting 2 [listOf [forTwo [.jump .breakLoop 128, tick]]] 0).2.1 = 0 := by
  decide

end Seahaven.Shell.Interp
