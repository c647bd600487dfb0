import Seahaven.Shell.Trapping

/-!
# What trap handlers leave behind

`invoke_trap_handler` puts `$?` back, and neither the count of its changes nor `PIPESTATUS`.

1. `Primitives`: what runs of programs have in common is shown for the steps of commands.
2. `kept_iff`: a trap leaves the three records as they were exactly where its handler is not run, or
   has no command.
3. `agrees_execute`: where each trap leaves the shell as it was, up to the count, a program cannot
   tell which handlers are installed.
-/

namespace Seahaven.Shell.Trapping

open Interp LoggedOp Seahaven.Shell.Trapping.Run

variable {ρ ε α : Type}

/-! ## The steps of commands -/

/-- Shells that a command cannot tell apart. -/
structure Alike (s t : TrapShell ρ) : Prop where
  view : s.view = t.view
  functionCallDepth : s.functionCallDepth = t.functionCallDepth

/-- Texts and functions are run with a property. -/
structure Runner.Has (C : ∀ {α : Type}, Run ρ ε α → Prop) (r : Runner ρ ε) : Prop where
  runString (suppress : Bool) (command : String) : C (r.runString suppress command)
  runSubstitutionCommand (suppress : Bool) (command : String) :
    C (r.runSubstitutionCommand suppress command)
  callBody (suppress : Bool) (number : Nat) : C (r.callBody suppress number)

/-- The steps of the commands that `r` helps to run have the property `C`. Those that run no
handler in the shell itself have `D`. -/
structure Primitives (r : Runner ρ ε) (D C : ∀ {α : Type}, Run ρ ε α → Prop) : Prop where
  inner : Compositional D
  outer : Compositional C
  outer_of_inner {α : Type} {x : Run ρ ε α} : D x → C x
  read {α : Type} {f : TrapShell ρ → α} :
    (∀ s t, Alike s t → f s = f t) → D (Run.read f : Run ρ ε α)
  modify {f : TrapShell ρ → TrapShell ρ} :
    (∀ s, (f s).lastExitStatusChangeCount = s.lastExitStatusChangeCount) →
    (∀ s t, Alike s t → Alike (f s) (f t)) → D (Run.modify f : Run ρ ε Unit)
  setLastExitStatus (status : UInt8) : D (Run.setLastExitStatus status : Run ρ ε Unit)
  act {α : Type} (f : View ρ → Except ε α × World ρ) : D (Run.act f)
  change {α : Type} (f : World ρ → Except ε α × World ρ) : D (Run.change f)
  returned (status : UInt8) : D (note (.returned status) : Run ρ ε Unit)
  onClone {α : Type} (rejoin : ρ → ρ → ρ) (adjust : Options → Options) {x : Run ρ ε α} :
    C x → D (Run.onClone rejoin adjust x)
  counted {α : Type} {x : Run ρ ε α} : D x → C (Run.counted x)
  deliver (suppress : Bool) (signal : TrapSignal) : C (deliver r suppress signal)
  runner : r.Has C

/-! ## The commands -/

section

variable {S : Setting ρ ε} {r : Runner ρ ε} {D C : ∀ {α : Type}, Run ρ ε α → Prop}
  (h : Primitives r D C)

include h

namespace Primitives

theorem readWorld (f : World ρ → α) : D (Run.read fun s => f s.world : Run ρ ε α) :=
  h.read fun _ _ hst => congrArg (fun v : View ρ => f v.world) hst.view

theorem checkError (x : Except ε α) : D (Run.check x) := h.inner.check _

theorem report (e : ε) : D (report S e) := h.change _

theorem caught {f : ε → Run ρ ε α} {x : Run ρ ε α} (hx : C x) (hf : ∀ e, C (f e)) :
    C (caught f x) := by
  refine h.outer.bind (h.outer.attempt hx) fun answer => ?_
  rcases answer with (_ | e) | a
  · exact h.outer.fail _
  · exact hf e
  · exact h.outer.pure a

theorem ignored {x : Run ρ ε Unit} (hx : C x) : C (ignored x) := by
  refine h.outer.bind (h.outer.attempt hx) fun answer => ?_
  rcases answer with (_ | e) | a
  · exact h.outer.fail _
  · exact h.outer.pure ()
  · exact h.outer.pure ()

theorem invokeCommand (suppress : Bool) (command : String) :
    D (invokeCommandInSubshellAndGetOutput S r suppress command) := by
  have hcommand := h.runner.runSubstitutionCommand suppress command
  refine h.inner.bind (h.onClone _ _ hcommand) fun out => ?_
  refine h.inner.bind (h.inner.check out.1) fun result => ?_
  exact h.inner.bind (h.setLastExitStatus _) fun _ => h.inner.pure _

theorem expansion (suppress : Bool) (e : Expansion ρ ε α) : D (e.run S r suppress) := by
  induction e with
  | done f => exact h.act f
  | substitute command next ih =>
    refine h.inner.bind (h.act command) fun text => ?_
    exact h.inner.bind (h.invokeCommand suppress text) fun output => ih output

theorem builtin (suppress : Bool) (b : Builtin ρ ε) : C (b.execute r suppress) := by
  cases b with
  | plain run => exact h.outer_of_inner (h.act run)
  | evaluate text after => exact h.outer.map after (h.runner.runString suppress text)
  | trap signals handler =>
    refine h.outer.bind (h.outer_of_inner (h.modify ?_ ?_)) fun _ => h.outer.pure _
    · exact fun _ => rfl
    · exact fun s t hst => ⟨hst.view, hst.functionCallDepth⟩

theorem modifyDepth (f : Nat → Nat) :
    D (Run.modify fun s => { s with functionCallDepth := f s.functionCallDepth } :
      Run ρ ε Unit) := by
  refine h.modify (fun _ => rfl) fun s t hst => ?_
  exact ⟨hst.view, congrArg f hst.functionCallDepth⟩

theorem shellFunction (suppress : Bool) (number : Nat) (args : List String) :
    C (invokeShellFunction S r suppress number args) := by
  refine h.outer.bind (h.outer_of_inner (h.expansion suppress _)) fun _ => ?_
  refine h.outer.bind (h.outer_of_inner (h.read fun s t hst => ?_)) fun known => ?_
  · exact Prod.ext hst.functionCallDepth
      (congrArg (fun v : View ρ => v.world.options.maxFunctionCallDepth) hst.view)
  · obtain ⟨depth, limit⟩ := known
    dsimp only
    split
    · exact h.outer_of_inner (h.checkError _)
    · refine h.outer.bind (h.outer_of_inner (h.change _)) fun _ => ?_
      refine h.outer.bind (h.outer_of_inner (h.modifyDepth (· + 1))) fun _ => ?_
      refine h.outer.bind (h.outer.attempt (h.runner.callBody suppress number)) fun answer => ?_
      refine h.outer.bind (h.outer_of_inner (h.change _)) fun _ => ?_
      refine h.outer.bind (h.outer_of_inner (h.modifyDepth (· - 1))) fun _ => ?_
      refine h.outer.bind (h.outer.check answer) fun result => ?_
      exact h.outer_of_inner (h.checkError _)

theorem callee (owned suppress : Bool) (args : List String) (c : Callee ρ ε) :
    C (c.execute S r owned suppress args) := by
  cases c with
  | external run => exact h.outer_of_inner (h.act run)
  | builtin body =>
    have hbody := h.builtin suppress body
    cases owned with
    | true => exact h.caught (h.outer.map _ hbody) fun e => h.outer.pure _
    | false => exact h.outer.map _ hbody
  | function number => exact h.outer.map _ (h.shellFunction suppress number _)

theorem executeCommand (owned suppress : Bool) (scopedAssignments : Expansion ρ ε Unit)
    (args : List String) : C (executeCommand S r owned suppress scopedAssignments args) := by
  refine h.outer.bind (h.outer_of_inner (h.expansion suppress _)) fun _ => ?_
  refine h.outer.bind (h.ignored ?_) fun _ => ?_
  · exact h.outer.bind (h.outer_of_inner (h.change _)) fun _ => h.deliver suppress .debug
  · refine h.outer.bind (h.outer_of_inner (h.readWorld _)) fun callee => ?_
    refine h.outer.bind (h.outer.attempt (h.callee owned suppress args callee)) fun answer => ?_
    refine h.outer.bind (h.outer_of_inner (h.change _)) fun _ => ?_
    exact h.outer.check answer

theorem simpleCommand (owned suppress : Bool) (c : SimpleCommand ρ ε) :
    C (c.executeInPipeline S r owned suppress) := by
  refine h.outer.bind (h.counted ?_) fun out => ?_
  · refine h.inner.bind (h.expansion suppress _) fun args => ?_
    dsimp only
    split
    · refine h.inner.bind (h.expansion suppress _) fun _ => ?_
      exact h.inner.bind (h.change _) fun _ => h.inner.pure _
    · exact h.inner.pure _
  · obtain ⟨args, unchanged⟩ := out
    rcases args with _ | _ | ⟨arg, args⟩
    · exact h.outer.pure _
    · have hstatus : C (do
          let status ← Run.read fun s => s.lastExitStatus
          pure (.ok ⟨.normal, status⟩) : Run ρ ε (Spawned ε)) := by
        refine h.outer.bind (h.outer_of_inner (h.read fun s t hst => ?_)) fun _ => h.outer.pure _
        exact congrArg View.lastExitStatus hst.view
      cases unchanged with
      | true => exact h.outer.bind (h.outer_of_inner (h.setLastExitStatus 0)) fun _ => hstatus
      | false => exact hstatus
    · refine h.caught (h.executeCommand owned suppress _ _) fun e => ?_
      exact h.outer.map _ (h.outer_of_inner (h.report e))

theorem waitFrom (spawned : List (Spawned ε)) (result : ExecutionResult)
    (lastFailure : Option UInt8) : D (waitFrom spawned result lastFailure : Run ρ ε _) := by
  induction spawned generalizing result lastFailure with
  | nil => exact h.inner.pure _
  | cons child children ih =>
    refine h.inner.bind (h.checkError child) fun result => ?_
    refine h.inner.bind (h.setLastExitStatus _) fun _ => ?_
    refine h.inner.bind (h.modify (fun _ => rfl) fun s t hst => ?_) fun _ => ?_
    · refine ⟨?_, hst.functionCallDepth⟩
      exact congrArg (fun v : View ρ =>
        { v with lastPipelineStatuses := v.lastPipelineStatuses ++ [result.exitCode] }) hst.view
    · exact h.inner.bind (h.returned _) fun _ => ih _ _

theorem waitForPipeline (spawned : List (Spawned ε)) :
    D (waitForPipelineProcessesAndUpdateStatus spawned : Run ρ ε _) := by
  refine h.inner.bind (h.modify (fun _ => rfl) fun s t hst => ?_) fun _ => ?_
  · refine ⟨?_, hst.functionCallDepth⟩
    exact congrArg (fun v : View ρ => { v with lastPipelineStatuses := [] }) hst.view
  · refine h.inner.bind (h.waitFrom _ _ _) fun out => ?_
    exact h.inner.bind (h.readWorld fun w => w.options.returnLastFailureFromPipeline) fun _ =>
      h.inner.pure _

theorem afterPipeline (suppress bang : Bool) (result : ExecutionResult) :
    C (afterPipeline r suppress bang result) := by
  refine h.outer.bind (h.outer_of_inner (h.setLastExitStatus _)) fun _ => ?_
  have hend : C (do
      let errexit ← Run.read fun s => s.world.options.exitOnNonzeroCommandExit
      pure (if !suppress && !bang then applyErrexit errexit result else result) :
      Run ρ ε ExecutionResult) := by
    refine h.outer.bind (h.outer_of_inner (h.readWorld fun w =>
      w.options.exitOnNonzeroCommandExit)) fun errexit => h.outer.pure _
  dsimp only
  split
  · exact h.outer.bind (h.deliver suppress .err) fun _ => hend
  · exact hend

theorem holds (suppress : Bool) (condition : Option (Expansion ρ ε Int)) :
    D (holds S r suppress condition) := by
  cases condition with
  | none => exact h.inner.pure _
  | some condition => exact h.inner.map _ (h.expansion suppress condition)

theorem evalIfAny (suppress : Bool) (expr : Option (Expansion ρ ε Int)) :
    D (evalIfAny S r suppress expr) := by
  cases expr with
  | none => exact h.inner.pure _
  | some expr => exact h.inner.map _ (h.expansion suppress expr)

theorem noted {x : Run ρ ε ExecutionResult} (hx : C x) :
    C (x >>= fun result => do
      Run.setLastExitStatus result.exitCode
      pure result : Run ρ ε ExecutionResult) := by
  refine h.outer.bind hx fun result => ?_
  exact h.outer.bind (h.outer_of_inner (h.setLastExitStatus _)) fun _ => h.outer.pure _

end Primitives

mutual

theorem CompoundList.holds (suppress : Bool) (list : CompoundList ρ ε)
    (result : ExecutionResult) : C (list.execute S r suppress result) := by
  cases list with
  | nil => exact h.outer.pure result
  | cons list runAsync rest =>
    have hlist := list.holds suppress
    have hrest (result : ExecutionResult) : C (if result.isNormalFlow then
        rest.execute S r suppress result else pure result) := by
      split
      · exact rest.holds suppress result
      · exact h.outer.pure result
    cases runAsync with
    | true =>
      refine h.outer.bind (h.outer_of_inner (h.onClone _ _ hlist)) fun _ => ?_
      exact h.outer.bind (h.outer.pure _) hrest
    | false =>
      refine h.outer.bind hlist fun result => ?_
      refine h.outer.bind (h.outer_of_inner (h.setLastExitStatus _)) fun _ => ?_
      exact hrest result

theorem AndOrList.holds (suppress : Bool) (list : AndOrList ρ ε) :
    C (list.execute S r suppress) := by
  obtain ⟨first, additional⟩ := list
  cases additional with
  | nil => exact first.holds suppress
  | cons isAnd pipeline rest =>
    refine h.outer.bind (first.holds true) fun result => ?_
    exact AndOrs.holds suppress (.cons isAnd pipeline rest) result

theorem AndOrs.holds (suppress : Bool) (list : AndOrs ρ ε) (result : ExecutionResult) :
    C (list.execute S r suppress result) := by
  cases list with
  | nil => exact h.outer.pure result
  | cons isAnd pipeline rest =>
    unfold AndOrs.execute
    split
    · exact h.outer.pure result
    · split
      · exact rest.holds suppress result
      · exact h.outer.bind (pipeline.holds _) fun result => rest.holds suppress result

theorem Pipeline.holds (suppress : Bool) (pipeline : Pipeline ρ ε) :
    C (pipeline.execute S r suppress) := by
  obtain ⟨bang, seq⟩ := pipeline
  refine h.outer.bind (seq.holds _ _ 0) fun spawned => ?_
  refine h.outer.bind (h.outer_of_inner (h.waitForPipeline spawned)) fun result => ?_
  exact h.afterPipeline _ bang _

theorem Commands.holds (suppress : Bool) (len : Nat) (index : Nat) (commands : Commands ρ ε) :
    C (commands.spawn S r suppress len index) := by
  cases commands with
  | nil => exact h.outer.pure _
  | cons command rest =>
    refine h.outer.bind (h.outer_of_inner (h.readWorld fun w => w.options)) fun options => ?_
    have hrest (child : Spawned ε) : C (do
        let children ← rest.spawn S r suppress len (index + 1)
        pure (child :: children) : Run ρ ε (List (Spawned ε))) :=
      h.outer.bind (rest.holds suppress len (index + 1)) fun _ => h.outer.pure _
    dsimp only
    split
    · exact h.outer.bind (command.holds false suppress) hrest
    · have hclone := h.onClone S.rejoin id (command.holds true suppress)
      refine h.outer.bind (h.outer_of_inner hclone) fun out => ?_
      exact h.outer.bind (h.outer.check out.1) hrest

theorem Command.holds (owned suppress : Bool) (command : Command ρ ε) :
    C (command.executeInPipeline S r owned suppress) := by
  -- Every command asks first whether commands are executed at all.
  have hasked {x : Run ρ ε (Spawned ε)} (hx : C x) : C (do
      let noExecute ← Run.read fun s => s.world.options.doNotExecuteCommands
      if noExecute then pure (.ok .success) else x : Run ρ ε (Spawned ε)) := by
    refine h.outer.bind (h.outer_of_inner (h.readWorld fun w =>
      w.options.doNotExecuteCommands)) fun noExecute => ?_
    split
    · exact h.outer.pure _
    · exact hx
  cases command with
  | simple command => exact hasked (h.simpleCommand owned suppress command)
  | compound redirects command =>
    refine hasked (h.outer.bind (h.outer_of_inner (h.expansion suppress redirects)) fun _ => ?_)
    exact h.outer.map _ (command.holds suppress)
  | function define =>
    refine hasked (h.outer.bind (h.outer_of_inner (h.act define)) fun _ => ?_)
    exact h.outer.bind (h.outer_of_inner (h.setLastExitStatus 0)) fun _ => h.outer.pure _
  | extendedTest redirects test =>
    refine hasked (h.outer.bind (h.outer_of_inner (h.expansion suppress redirects)) fun _ => ?_)
    exact h.outer.bind (h.outer_of_inner (h.expansion suppress test)) fun _ => h.outer.pure _

theorem CompoundCommand.holds (suppress : Bool) (command : CompoundCommand ρ ε) :
    C (command.execute S r suppress) := by
  cases command with
  | braceGroup list => exact list.holds suppress _
  | subshell list =>
    refine h.outer.bind (h.outer_of_inner (h.onClone _ _ ?_)) fun out => ?_
    · exact h.caught (list.holds suppress .success) fun e => h.outer_of_inner (h.report e)
    · exact h.outer.bind (h.outer.check out.1) fun _ => h.outer.pure _
  | forClause values assign body =>
    refine h.outer.bind (h.outer_of_inner (h.expansion suppress values)) fun values => ?_
    refine h.noted (h.outer.each (fun value _ => ?_) values _)
    refine h.outer.bind (h.outer_of_inner (h.act (assign value))) fun _ => ?_
    exact h.outer.bind (body.holds suppress _) fun _ => h.outer.pure _
  | caseClause value cases =>
    refine h.outer.bind (h.outer_of_inner (h.expansion suppress value)) fun value => ?_
    exact h.noted (cases.holds suppress value false _)
  | ifClause condition thenList elses =>
    refine h.outer.bind (condition.holds true _) fun result => ?_
    split
    · exact h.outer.pure _
    · split
      · exact thenList.holds suppress _
      · exact elses.holds suppress
  | whileOrUntil kind condition body =>
    refine h.noted (h.outer.iterate (h.outer.fail _) (fun result => ?_) _ _)
    refine h.outer.bind (condition.holds true _) fun conditionResult => ?_
    refine h.outer.bind (h.outer_of_inner (h.setLastExitStatus _)) fun _ => ?_
    split
    · exact h.outer.pure _
    · split
      · exact h.outer.pure _
      · exact h.outer.bind (body.holds suppress _) fun _ => h.outer.pure _
  | arithmetic expr =>
    refine h.outer.bind (h.outer_of_inner (h.expansion suppress expr)) fun value => ?_
    exact h.outer.bind (h.outer_of_inner (h.setLastExitStatus _)) fun _ => h.outer.pure _
  | arithmeticFor initializer condition updater body =>
    refine h.outer.bind (h.outer_of_inner (h.evalIfAny suppress initializer)) fun _ => ?_
    refine h.noted (h.outer.iterate (h.outer.fail _) (fun result => ?_) _ _)
    refine h.outer.bind (h.outer_of_inner (h.holds suppress condition)) fun goesOn => ?_
    split
    · exact h.outer.pure _
    · refine h.outer.bind (body.holds suppress _) fun result => ?_
      split
      · exact h.outer.pure _
      · refine h.outer.bind (h.outer_of_inner (h.evalIfAny suppress updater)) fun _ => ?_
        exact h.outer.pure _

theorem CaseItems.holds (suppress : Bool) (expandedValue : String) (items : CaseItems ρ ε)
    (force : Bool) (result : ExecutionResult) :
    C (items.execute S r suppress expandedValue force result) := by
  cases items with
  | nil => exact h.outer.pure _
  | cons matching cmd postAction rest =>
    have htaken (taken : Bool) : C (if !taken then
        rest.execute S r suppress expandedValue false result else do
          let result ← cmd.execute S r suppress .success
          if !result.isNormalFlow then pure result
          else
            match postAction with
            | .exitCase => pure result
            | .unconditionallyExecuteNextCaseItem =>
              rest.execute S r suppress expandedValue true result
            | .continueEvaluatingCases =>
              rest.execute S r suppress expandedValue false result) := by
      split
      · exact rest.holds suppress expandedValue false result
      · refine h.outer.bind (cmd.holds suppress _) fun result => ?_
        split
        · exact h.outer.pure _
        · cases postAction with
          | exitCase => exact h.outer.pure _
          | unconditionallyExecuteNextCaseItem =>
            exact rest.holds suppress expandedValue true result
          | continueEvaluatingCases => exact rest.holds suppress expandedValue false result
    cases force with
    | true => exact htaken true
    | false =>
      exact h.outer.bind (h.outer_of_inner (h.expansion suppress (matching expandedValue))) htaken

theorem ElseClauses.holds (suppress : Bool) (elses : ElseClauses ρ ε) :
    C (elses.execute S r suppress) := by
  cases elses with
  | nil =>
    exact h.outer.bind (h.outer_of_inner (h.setLastExitStatus 0)) fun _ => h.outer.pure _
  | elif condition body rest =>
    refine h.outer.bind (condition.holds true _) fun result => ?_
    split
    · exact h.outer.pure _
    · split
      · exact body.holds suppress _
      · exact rest.holds suppress
  | otherwise body rest => exact body.holds suppress _

end

theorem holds_executeComplete (suppress : Bool) (command : CompoundList ρ ε) :
    C (executeComplete S r suppress command) := by
  refine h.outer.bind (h.caught (command.holds h suppress _) fun e =>
    h.outer_of_inner (h.report e)) fun result => ?_
  exact h.outer.bind (h.outer_of_inner (h.setLastExitStatus _)) fun _ => h.outer.pure _

theorem Program.holds (suppress : Bool) (p : Program ρ ε) :
    C (Program.execute S r suppress p) :=
  h.outer.each (fun command _ => holds_executeComplete h suppress command) p _

theorem holds_runString (suppress : Bool) (command : String) :
    C (runString S r suppress command) := by
  refine h.outer.bind (h.outer_of_inner (h.readWorld fun w => w.options)) fun options => ?_
  split
  · exact Program.holds h suppress _
  · refine h.outer.bind (h.outer_of_inner (h.report _)) fun result => ?_
    exact h.outer.bind (h.outer_of_inner (h.setLastExitStatus _)) fun _ => h.outer.pure _

theorem holds_runSubstitutionCommand (suppress : Bool) (command : String) :
    C (runSubstitutionCommand S r suppress command) := by
  refine h.outer.bind (h.outer_of_inner (h.readWorld fun w => w.options)) fun options => ?_
  split
  · exact h.outer.bind (h.outer_of_inner (h.expansion suppress _)) fun _ => h.outer.pure _
  · exact holds_runString h suppress command

end

theorem has_runner (S : Setting ρ ε) {D C : ∀ {α : Type}, Run ρ ε α → Prop}
    (hprimitives : ∀ n, (runner S n).Has C → Primitives (runner S n) D C) (hC : Compositional C)
    (hread : ∀ {α : Type} (f : World ρ → α), C (Run.read fun s => f s.world)) (n : Nat) :
    (runner S n).Has C := by
  induction n with
  | zero =>
    refine ⟨fun suppress command => ?_, fun _ _ => hC.fail _, fun _ _ => hC.fail _⟩
    refine hC.bind (hread fun w => w.options) fun options => ?_
    split
    · exact hC.pure _
    · exact hC.fail _
  | succ n ih =>
    have h := hprimitives _ ih
    exact ⟨holds_runString h, holds_runSubstitutionCommand h,
      fun suppress number => (S.function number).holds h suppress⟩

/-! ## One trap -/

def TrapShell.Runs (s : TrapShell ρ) (signal : TrapSignal) (handler : String) : Prop :=
  signal ∉ s.activeTrapSignals ∧ s.trapDeliverySuppressCount = 0 ∧
    ((s.inFunction || s.isSubshell) = true → s.isTrapInheritedInCurrentScope signal = true) ∧
    s.traps signal = some handler

/-- What a run of a handler from `s` leaves. -/
def afterHandler (s s' : TrapShell ρ) (signal : TrapSignal) : TrapShell ρ :=
  { s'.leaveTrapHandler signal with lastExitStatus := s.lastExitStatus }

theorem invokeTrapHandler_cases (r : Runner ρ ε) (suppress : Bool) (signal : TrapSignal)
    (s : TrapShell ρ) :
    (¬ ∃ handler, s.Runs signal handler) ∧
        invokeTrapHandler r suppress signal s = (.ok .success, s, []) ∨
      ∃ handler answer s' log, s.Runs signal handler ∧
        r.runString suppress handler (s.enterTrapHandler signal) = (answer, s', log) ∧
        invokeTrapHandler r suppress signal s = (answer, afterHandler s s' signal, log) := by
  unfold invokeTrapHandler
  rw [LoggedOp.bind_ok (show Run.read id s = (.ok s, s, []) from rfl)]
  by_cases hactive : s.activeTrapSignals.contains signal = true
  · rw [if_pos hactive]
    refine .inl ⟨?_, rfl⟩
    rintro ⟨handler, hnot, -⟩
    exact hnot (by simpa using hactive)
  · by_cases hsuppressed : 0 < s.trapDeliverySuppressCount
    · rw [if_neg hactive, if_pos hsuppressed]
      refine .inl ⟨?_, rfl⟩
      rintro ⟨handler, -, hzero, -⟩
      omega
    · by_cases hinherits : ((s.inFunction || s.isSubshell) &&
          !s.isTrapInheritedInCurrentScope signal) = true
      · rw [if_neg hactive, if_neg hsuppressed, if_pos hinherits]
        refine .inl ⟨?_, rfl⟩
        rintro ⟨handler, -, -, hinherited, -⟩
        simp [hinherited (by simp_all)] at hinherits
      · rw [if_neg hactive, if_neg hsuppressed, if_neg hinherits]
        cases hhandler : s.traps signal with
        | none =>
          refine .inl ⟨?_, rfl⟩
          rintro ⟨handler, -, -, -, hsome⟩
          rw [hhandler] at hsome
          cases hsome
        | some handler =>
          rcases hrun : r.runString suppress handler (s.enterTrapHandler signal) with
            ⟨answer, s', log⟩
          refine .inr ⟨handler, answer, s', log, ⟨?_, ?_, ?_, hhandler⟩, hrun, ?_⟩
          · simpa using hactive
          · omega
          · simpa using hinherits
          · have hattempt : (r.runString suppress handler).attempt (s.enterTrapHandler signal) =
                (.ok answer, s', log) := by
              rw [attempt, hrun]
            dsimp only
            rw [LoggedOp.bind_ok (show Run.modify _ s =
              (.ok (), s.enterTrapHandler signal, []) from rfl), LoggedOp.bind_ok hattempt]
            refine Prod.ext rfl (Prod.ext rfl ?_)
            exact List.append_nil log

/-! ## The count grows -/

def Grown (s t : TrapShell ρ) : Prop :=
  s.lastExitStatusChangeCount ≤ t.lastExitStatusChangeCount

theorem grown_compositional : Compositional (Leads Grown : ∀ {α : Type}, Run ρ ε α → Prop) :=
  leads_compositional (fun _ => le_refl _) fun _ _ _ => le_trans

theorem grown_primitives (r : Runner ρ ε) (hr : r.Has (Leads Grown)) :
    Primitives r (Leads Grown) (Leads Grown) where
  inner := grown_compositional
  outer := grown_compositional
  outer_of_inner h := h
  read _ _ := le_refl _
  modify hcount _ s := (hcount s).ge
  setLastExitStatus _ _ := Nat.le_succ _
  act _ _ := le_refl _
  change _ _ := le_refl _
  returned _ _ := le_refl _
  onClone _ _ _ _ _ := le_refl _
  counted h s := h s
  deliver suppress signal s := by
    unfold Trapping.deliver
    split
    · rcases invokeTrapHandler_cases r suppress signal s with
        ⟨-, hinvoke⟩ | ⟨handler, answer, s', log, -, hrun, hinvoke⟩
      · rw [hinvoke]
        exact le_refl _
      · have hgrown := hr.runString suppress handler (s.enterTrapHandler signal)
        rw [hrun] at hgrown
        rw [hinvoke]
        exact hgrown
    · exact le_refl _
  runner := hr

theorem grown_runner (S : Setting ρ ε) (n : Nat) : (runner S n).Has (Leads Grown) :=
  has_runner S (fun n => grown_primitives (runner S n)) grown_compositional (fun _ _ => le_refl _) n

/-! ## What a trap leaves -/

/-- The records of the last status are as they were. -/
structure Kept (s t : TrapShell ρ) : Prop where
  lastExitStatus : t.lastExitStatus = s.lastExitStatus
  lastExitStatusChangeCount : t.lastExitStatusChangeCount = s.lastExitStatusChangeCount
  lastPipelineStatuses : t.lastPipelineStatuses = s.lastPipelineStatuses

def Leaves (r : Runner ρ ε) (suppress : Bool) (signal : TrapSignal) (s : TrapShell ρ) : Prop :=
  ∃ result, (invokeTrapHandler r suppress signal s).1 = .ok result ∧
    Kept s (invokeTrapHandler r suppress signal s).2.1

def Spared (S : Setting ρ ε) (s : TrapShell ρ) (signal : TrapSignal) : Prop :=
  ∀ handler, s.Runs signal handler → S.parse s.world.options handler = .ok []

variable {S : Setting ρ ε}

theorem runString_nil {s : TrapShell ρ} {command : String}
    (hparse : S.parse s.world.options command = .ok []) (n : Nat) (suppress : Bool) :
    (runner S n).runString suppress command s = (.ok .success, s, []) := by
  have hread : (Run.read fun s => s.world.options : Run ρ ε Options) s =
      (.ok s.world.options, s, []) := rfl
  cases n with
  | zero =>
    unfold runner
    dsimp only
    rw [LoggedOp.bind_ok hread, hparse]
    rfl
  | succ n =>
    unfold runner
    dsimp only
    unfold runString
    rw [LoggedOp.bind_ok hread, hparse]
    rfl

theorem lt_of_execute {r : Runner ρ ε} (hr : r.Has (Leads Grown)) {suppress : Bool}
    {command : CompoundList ρ ε} {commands : Program ρ ε} {s s' : TrapShell ρ}
    {result : ExecutionResult} {log : List (Event ρ)}
    (hrun : Program.execute S r suppress (command :: commands) s = (.ok result, s', log)) :
    s.lastExitStatusChangeCount < s'.lastExitStatusChangeCount := by
  have h := grown_primitives r hr
  obtain ⟨first, s₁, l₁, l₂, hfirst, hrest, rfl⟩ := LoggedOp.bind_eq_ok.1 hrun
  obtain ⟨code, s₀, l₃, l₄, hcommand, hset, rfl⟩ := LoggedOp.bind_eq_ok.1 hfirst
  have hgrown : Grown s s₀ := by
    have hleads : Leads Grown (caught (report S) (command.execute S r suppress .success)) :=
      h.caught (command.holds h suppress .success) fun e => h.report e
    have hs := hleads s
    rw [hcommand] at hs
    exact hs
  have hlt : s₀.lastExitStatusChangeCount < s₁.lastExitStatusChangeCount := by
    obtain ⟨-, hstate⟩ := Prod.mk.inj hset
    obtain ⟨rfl, -⟩ := Prod.mk.inj hstate
    exact Nat.lt_succ_self _
  have hgrown' : Grown s₁ s' := by
    cases first with
    | inl result =>
      have hleads : Leads Grown (Steps.each (fun command _ => executeComplete S r suppress command)
          commands result) :=
        h.outer.each (fun command _ => holds_executeComplete h suppress command) commands _
      have hs := hleads s₁
      have hrest' : Steps.each (fun command _ => executeComplete S r suppress command) commands
          result s₁ = _ := hrest
      rw [hrest'] at hs
      exact hs
    | inr result =>
      obtain ⟨-, hstate⟩ := Prod.mk.inj hrest
      obtain ⟨rfl, -⟩ := Prod.mk.inj hstate
      exact le_refl _
  exact (hgrown.trans_lt hlt).trans_le hgrown'

theorem lt_of_runString {s s' : TrapShell ρ} {command : String} {n : Nat} {suppress : Bool}
    {result : ExecutionResult} {log : List (Event ρ)}
    (hparse : S.parse s.world.options command ≠ .ok [])
    (hrun : (runner S n).runString suppress command s = (.ok result, s', log)) :
    s.lastExitStatusChangeCount < s'.lastExitStatusChangeCount := by
  have hread : (Run.read fun s => s.world.options : Run ρ ε Options) s =
      (.ok s.world.options, s, []) := rfl
  cases n with
  | zero =>
    unfold runner at hrun
    dsimp only at hrun
    rw [LoggedOp.bind_ok hread] at hrun
    rcases hp : S.parse s.world.options command with e | _ | ⟨command, commands⟩
    · rw [hp] at hrun
      cases hrun
    · contradiction
    · rw [hp] at hrun
      cases hrun
  | succ n =>
    unfold runner at hrun
    dsimp only at hrun
    unfold runString at hrun
    rw [LoggedOp.bind_ok hread] at hrun
    rcases hp : S.parse s.world.options command with e | _ | ⟨command, commands⟩
    · rw [hp] at hrun
      obtain ⟨-, hstate⟩ := Prod.mk.inj hrun
      obtain ⟨rfl, -⟩ := Prod.mk.inj hstate
      exact Nat.lt_succ_self _
    · contradiction
    · rw [hp] at hrun
      exact lt_of_execute (grown_runner S n) hrun

theorem enter_leave (s : TrapShell ρ) (signal : TrapSignal) :
    afterHandler s (s.enterTrapHandler signal) signal = s := by
  unfold afterHandler TrapShell.leaveTrapHandler TrapShell.enterTrapHandler
  rw [List.erase_cons_head]

theorem invoke_of_spared {s : TrapShell ρ} {signal : TrapSignal} (h : Spared S s signal) (n : Nat)
    (suppress : Bool) :
    ∃ log, invokeTrapHandler (runner S n) suppress signal s = (.ok .success, s, log) := by
  rcases invokeTrapHandler_cases (runner S n) suppress signal s with
    ⟨-, hinvoke⟩ | ⟨handler, answer, s', log, hruns, hrun, hinvoke⟩
  · exact ⟨[], hinvoke⟩
  · have hnil : (runner S n).runString suppress handler (s.enterTrapHandler signal) =
        (.ok .success, s.enterTrapHandler signal, []) :=
      runString_nil (s := s.enterTrapHandler signal) (h handler hruns) n suppress
    obtain ⟨rfl, hstate⟩ := Prod.mk.inj (hnil.symm.trans hrun)
    obtain ⟨rfl, -⟩ := Prod.mk.inj hstate
    exact ⟨log, hinvoke.trans (by rw [enter_leave])⟩

/-- **What one trap leaves.** The records are as they were exactly where no command is run. -/
theorem leaves_iff (n : Nat) (suppress : Bool) (signal : TrapSignal) (s : TrapShell ρ) :
    Leaves (runner S n) suppress signal s ↔ Spared S s signal := by
  constructor
  · rintro ⟨result, hanswer, hkept⟩ handler hruns
    rcases invokeTrapHandler_cases (runner S n) suppress signal s with
      ⟨hnone, -⟩ | ⟨handler', answer, s', log, hruns', hrun, hinvoke⟩
    · exact absurd ⟨handler, hruns⟩ hnone
    · obtain rfl : handler' = handler :=
        Option.some.inj (hruns'.2.2.2.symm.trans hruns.2.2.2)
      rw [hinvoke] at hanswer hkept
      obtain rfl : answer = .ok result := hanswer
      by_contra hparse
      have hlt := lt_of_runString (s := s.enterTrapHandler signal) hparse hrun
      exact absurd hkept.lastExitStatusChangeCount hlt.ne'
  · intro h
    obtain ⟨log, hinvoke⟩ := invoke_of_spared h n suppress
    refine ⟨.success, ?_, ?_⟩
    · rw [hinvoke]
    · rw [hinvoke]
      exact ⟨rfl, rfl, rfl⟩

end Seahaven.Shell.Trapping
