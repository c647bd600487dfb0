import Mathlib.Logic.Function.Basic
import Seahaven.Lib.Op
import Seahaven.Platform.Stdio

/-!
# Effects on a session's streams and jobs

1. The types of `cmd.rs` and the part of `VfsPlatform` that the effects below read and change.
2. `spawn`, `wait_any` and the four `cmd_exec_*` effects, with the writes and the reads of the
   standard streams. The executor is any computation over a state of its own.
3. What each effect comes down to: `spawn_of_error`, `spawn_of_ok`, `waitAny_spec`, `collect_spawned`.
4. `Request`, `perform` and `run`: the effects a guest performs one after the other.
-/

namespace Seahaven

namespace Platform

/-! ## Types -/

/-- The `PlatformError` tags that the effects below answer or an executor may answer. -/
inductive PlatformError
  | alreadyExists
  | brokenPipe
  | interrupted
  | isADirectory
  | notFound
  | notADirectory
  | other (message : OsStr)
  | outOfMemory
  | permissionDenied
  | unsupported
  deriving DecidableEq

/-- A command to run. -/
structure Cmd where
  program : OsStr
  args : List OsStr
  envs : List (OsStr × OsStr)
  clearEnvs : Bool
  deriving DecidableEq

/-- `Cmd::new`. -/
def Cmd.new (program : OsStr) : Cmd := ⟨program, [], [], false⟩

/-- How a finished job ended. -/
inductive Exit
  | code (code : Int32)
  | signal (signal : Int32)
  deriving DecidableEq

/-- Where a child's stdout and stderr go. -/
inductive OutputMode
  | inherit
  | capture
  deriving DecidableEq

/-- What a child reads on stdin. -/
inductive StdinMode
  | inherit
  | null
  deriving DecidableEq

/-- The stdio arrangement for one run. -/
structure IoPlan where
  output : OutputMode
  stdin : StdinMode
  deriving DecidableEq

/-- `IoPlan::inherit`. -/
def IoPlan.inherit : IoPlan := ⟨.inherit, .inherit⟩

/-- `IoPlan::capture`. -/
def IoPlan.capture (stdin : StdinMode) : IoPlan := ⟨.capture, stdin⟩

/-- A handle to a spawned job. -/
structure JobHandle where
  id : UInt64
  deriving DecidableEq

/-- A finished job's result, held between `spawn` and `wait_any`. -/
structure Finished where
  exit : Exit
  captured : Option (List UInt8 × List UInt8)
  deriving DecidableEq

/-- What an executor returns from a run. -/
structure RunResult where
  exit : Exit
  stdout : List UInt8
  stderr : List UInt8
  deriving DecidableEq

/-- The outcome of a captured run. -/
inductive ExecOutput
  | success (stdout stderr : List UInt8)
  | nonZeroExit (exitCode : Int32) (stdout stderr : List UInt8)
  deriving DecidableEq

/-- `Executor::run`, over the executor's own state. -/
abbrev Executor (σ : Type) := Cmd → List UInt8 → Op σ PlatformError RunResult

def noExecutor : PlatformError := .unsupported

/-- The part of `VfsPlatform` that streams and jobs live in. `executor` is the state of the
executor, where there is one. -/
structure VfsPlatform (σ : Type) where
  output : OutputLog
  input : StdinSource
  executor : Option σ
  jobs : JobHandle → Option Finished
  nextHandle : UInt64

abbrev Effect (σ α : Type) := Op (VfsPlatform σ) PlatformError α

variable {σ : Type}

/-- `VfsPlatform::new`, with `with_stdin` and perhaps `with_executor`. -/
def VfsPlatform.new (stdin : List UInt8) (executor : Option σ) : VfsPlatform σ :=
  ⟨.new, .new stdin, executor, fun _ => none, 0⟩

/-! ## Effects -/

/-- `self.stdio.output.write(stream, bytes)`. -/
def writeOutput (stream : Stream) (bytes : List UInt8) : Effect σ Unit := fun p =>
  (.ok (), { p with output := p.output.write stream bytes })

/-- `stdout_write` and `stdout_write_bytes`. -/
def stdoutWrite (bytes : List UInt8) : Effect σ Unit := writeOutput .stdout bytes

/-- `stderr_write` and `stderr_write_bytes`. -/
def stderrWrite (bytes : List UInt8) : Effect σ Unit := writeOutput .stderr bytes

def stdoutLine (bytes : List UInt8) : Effect σ Unit := do
  writeOutput .stdout bytes
  writeOutput .stdout [newline]

def stderrLine (bytes : List UInt8) : Effect σ Unit := do
  writeOutput .stderr bytes
  writeOutput .stderr [newline]

def stdinLine : Effect σ (Option OsStr) := fun p =>
  (.ok p.input.readLine.1, { p with input := p.input.readLine.2 })

def stdinReadToEnd : Effect σ (List UInt8) := fun p =>
  (.ok p.input.readToEnd.1, { p with input := p.input.readToEnd.2 })

def stdinBytes : Effect σ (Option (List UInt8)) := fun p =>
  (.ok p.input.readChunk.1, { p with input := p.input.readChunk.2 })

/-- `self.executor.as_mut().ok_or(NO_EXECUTOR)?.run(cmd, &stdin)`. -/
def runExecutor (x : Executor σ) (cmd : Cmd) (stdin : List UInt8) : Effect σ RunResult := fun p =>
  match p.executor with
  | none => (.error noExecutor, p)
  | some s => ((x cmd stdin s).1, { p with executor := some (x cmd stdin s).2 })

/-- `VfsPlatform::mint_handle`. The counter is a `u64` and wraps. -/
def mintHandle : Effect σ JobHandle := fun p =>
  (.ok ⟨p.nextHandle⟩, { p with nextHandle := p.nextHandle + 1 })

/-- `self.jobs.insert(handle.0, finished)`. -/
def insertJob (handle : JobHandle) (finished : Finished) : Effect σ Unit := fun p =>
  (.ok (), { p with jobs := Function.update p.jobs handle (some finished) })

/-- The bytes `VfsPlatform::spawn` sets aside for the child. -/
def childStdin : StdinMode → Effect σ (List UInt8)
  | .inherit => stdinReadToEnd
  | .null => pure []

/-- What `VfsPlatform::spawn` does with the child's output. -/
def applyOutput (result : RunResult) : OutputMode → Effect σ (Option (List UInt8 × List UInt8))
  | .inherit => do
    writeOutput .stdout result.stdout
    writeOutput .stderr result.stderr
    pure none
  | .capture => pure (some (result.stdout, result.stderr))

/-- `VfsPlatform::spawn`. The child's input is read before it is known that anything will run. -/
def spawn (x : Executor σ) (cmd : Cmd) (io : IoPlan) : Effect σ JobHandle := do
  let stdin ← childStdin io.stdin
  let result ← runExecutor x cmd stdin
  let captured ← applyOutput result io.output
  let handle ← mintHandle
  insertJob handle ⟨result.exit, captured⟩
  pure handle

/-- The error of `VfsPlatform::wait_any`. -/
def noSuchJob : PlatformError :=
  .other (os "wait_any: no such job (empty list, or already waited)")

/-- `VfsPlatform::wait_any`. -/
def waitAny : List JobHandle → Effect σ (JobHandle × Finished)
  | [] => Op.check (.error noSuchJob)
  | handle :: handles => fun p =>
    match p.jobs handle with
    | some finished => (.ok (handle, finished), { p with jobs := Function.update p.jobs handle none })
    | none => waitAny handles p

/-- The error of `cmd_exec_exit_code` for a signal. -/
def killedBySignal : PlatformError := .other (os "child terminated by a signal")

def cmdExecExitCode (x : Executor σ) (cmd : Cmd) : Effect σ Int32 := do
  let handle ← spawn x cmd .inherit
  let (_, finished) ← waitAny [handle]
  match finished.exit with
  | .code code => pure code
  | .signal _ => Op.check (.error killedBySignal)

def cmdExecStatus (x : Executor σ) (cmd : Cmd) : Effect σ Int32 := do
  let handle ← spawn x cmd .inherit
  let (_, finished) ← waitAny [handle]
  match finished.exit with
  | .code code => pure code
  | .signal signal => pure (-signal)

/-- The outcome `VfsPlatform::exec_capturing` makes of a finished job. -/
def execOutput (finished : Finished) : ExecOutput :=
  let (stdout, stderr) := finished.captured.getD ([], [])
  match finished.exit with
  | .code code => if code = 0 then .success stdout stderr else .nonZeroExit code stdout stderr
  | .signal signal => .nonZeroExit (128 + signal) stdout stderr

/-- `VfsPlatform::exec_capturing`. -/
def execCapturing (x : Executor σ) (cmd : Cmd) (stdin : StdinMode) : Effect σ ExecOutput := do
  let handle ← spawn x cmd (.capture stdin)
  let (_, finished) ← waitAny [handle]
  pure (execOutput finished)

def cmdExecOutput (x : Executor σ) (cmd : Cmd) : Effect σ ExecOutput := execCapturing x cmd .null

def cmdExecOutputInheritStdin (x : Executor σ) (cmd : Cmd) : Effect σ ExecOutput :=
  execCapturing x cmd .inherit

/-! ## What spawning does -/

namespace VfsPlatform

variable (p : VfsPlatform σ)

def childInput (io : IoPlan) : List UInt8 :=
  match io.stdin with
  | .inherit => p.input.rest
  | .null => []

def drained (io : IoPlan) : VfsPlatform σ :=
  match io.stdin with
  | .inherit => { p with input := p.input.readToEnd.2 }
  | .null => p

def runs (x : Executor σ) (cmd : Cmd) (io : IoPlan) : Except PlatformError RunResult :=
  (runExecutor x cmd (p.childInput io) p).1

def logged (io : IoPlan) (result : RunResult) : OutputLog :=
  match io.output with
  | .inherit => (p.output.write .stdout result.stdout).write .stderr result.stderr
  | .capture => p.output

def executorAfter (x : Executor σ) (cmd : Cmd) (io : IoPlan) : Option σ :=
  p.executor.map fun s => (x cmd (p.childInput io) s).2

end VfsPlatform

def finishedOf (io : IoPlan) (result : RunResult) : Finished :=
  ⟨result.exit,
    match io.output with
    | .inherit => none
    | .capture => some (result.stdout, result.stderr)⟩

variable {e : PlatformError} {result : RunResult}

section Spawn

variable {x : Executor σ} {cmd : Cmd} {io : IoPlan} {p : VfsPlatform σ}

/-- The platform after a child has run, its job not collected. -/
def VfsPlatform.spawned (p : VfsPlatform σ) (x : Executor σ) (cmd : Cmd) (io : IoPlan)
    (result : RunResult) : VfsPlatform σ where
  output := p.logged io result
  input := (p.drained io).input
  executor := p.executorAfter x cmd io
  jobs := Function.update p.jobs ⟨p.nextHandle⟩ (some (finishedOf io result))
  nextHandle := p.nextHandle + 1

theorem childStdin_eq (io : IoPlan) (p : VfsPlatform σ) :
    childStdin io.stdin p = (.ok (p.childInput io), p.drained io) := by
  obtain ⟨output, stdin⟩ := io
  cases stdin <;> rfl

theorem runExecutor_drained : runExecutor x cmd (p.childInput io) (p.drained io) =
      (p.runs x cmd io, { p.drained io with executor := p.executorAfter x cmd io }) := by
  obtain ⟨output, stdin⟩ := io
  obtain ⟨log, input, executor, jobs, next⟩ := p
  cases stdin <;> cases executor <;> rfl

/-- **A spawn that fails** has only set the child's input aside and asked the executor. -/
theorem spawn_of_error (h : p.runs x cmd io = .error e) :
    spawn x cmd io p =
      (.error e, { p.drained io with executor := p.executorAfter x cmd io }) := by
  rw [spawn, Op.bind_ok (childStdin_eq io p)]
  exact Op.bind_error (by rw [runExecutor_drained, h])

/-- **A spawn that succeeds** leaves a job under the handle it answers. -/
theorem spawn_of_ok (h : p.runs x cmd io = .ok result) :
    spawn x cmd io p = (.ok ⟨p.nextHandle⟩, p.spawned x cmd io result) := by
  rw [spawn, Op.bind_ok (childStdin_eq io p),
    Op.bind_ok (show runExecutor x cmd (p.childInput io) (p.drained io) = (.ok result, _) by
      rw [runExecutor_drained, h])]
  obtain ⟨output, stdin⟩ := io
  obtain ⟨log, input, executor, jobs, next⟩ := p
  cases output <;> cases stdin <;> rfl

end Spawn

/-! ## What waiting does -/

theorem waitAny_of_some {handle : JobHandle} {handles : List JobHandle} {p : VfsPlatform σ}
    {f : Finished} (h : p.jobs handle = some f) :
    waitAny (handle :: handles) p =
      (.ok (handle, f), { p with jobs := Function.update p.jobs handle none }) := by
  simp only [waitAny, h]

theorem waitAny_spec (handles : List JobHandle) (p : VfsPlatform σ) :
    ((∀ h ∈ handles, p.jobs h = none) ∧ waitAny handles p = (.error noSuchJob, p)) ∨
    ∃ h ∈ handles, ∃ f, p.jobs h = some f ∧
      waitAny handles p = (.ok (h, f), { p with jobs := Function.update p.jobs h none }) := by
  induction handles with
  | nil => exact .inl ⟨fun h hh => absurd hh List.not_mem_nil, rfl⟩
  | cons handle handles ih =>
    cases hj : p.jobs handle with
    | some f => exact .inr ⟨handle, List.mem_cons_self, f, hj, waitAny_of_some hj⟩
    | none =>
      have hrest : waitAny (handle :: handles) p = waitAny handles p := by simp only [waitAny, hj]
      rw [hrest]
      rcases ih with ⟨hnone, hw⟩ | ⟨h, hh, f, hf, hw⟩
      · exact .inl ⟨List.forall_mem_cons.2 ⟨hj, hnone⟩, hw⟩
      · exact .inr ⟨h, List.mem_cons_of_mem _ hh, f, hf, hw⟩

def VfsPlatform.collected (p : VfsPlatform σ) (x : Executor σ) (cmd : Cmd) (io : IoPlan)
    (result : RunResult) : VfsPlatform σ :=
  { p.spawned x cmd io result with jobs := Function.update p.jobs ⟨p.nextHandle⟩ none }

theorem collect_spawned {x : Executor σ} {cmd : Cmd} {io : IoPlan} {p : VfsPlatform σ} :
    waitAny [⟨p.nextHandle⟩] (p.spawned x cmd io result) =
      (.ok (⟨p.nextHandle⟩, finishedOf io result), p.collected x cmd io result) := by
  have hj : (p.spawned x cmd io result).jobs ⟨p.nextHandle⟩ = some (finishedOf io result) :=
    Function.update_self ..
  rw [waitAny_of_some hj, VfsPlatform.collected]
  simp only [VfsPlatform.spawned, Function.update_idem]

/-! ## Requests -/

/-- An effect a guest performs on the streams and the jobs. -/
inductive Request
  | stdoutWrite (bytes : List UInt8)
  | stderrWrite (bytes : List UInt8)
  | stdoutLine (bytes : List UInt8)
  | stderrLine (bytes : List UInt8)
  | stdinLine
  | stdinReadToEnd
  | stdinBytes
  | spawn (cmd : Cmd) (io : IoPlan)
  | waitAny (handles : List JobHandle)
  | cmdExecExitCode (cmd : Cmd)
  | cmdExecStatus (cmd : Cmd)
  | cmdExecOutput (cmd : Cmd)
  | cmdExecOutputInheritStdin (cmd : Cmd)

/-- What an effect answers. -/
inductive Reply
  | unit
  | line (line : Option OsStr)
  | bytes (bytes : List UInt8)
  | chunk (chunk : Option (List UInt8))
  | handle (handle : JobHandle)
  | finished (handle : JobHandle) (finished : Finished)
  | exit (code : Int32)
  | output (output : ExecOutput)
  deriving DecidableEq

/-- The effect of a request. -/
def perform (x : Executor σ) : Request → Effect σ Reply
  | .stdoutWrite bytes => (fun _ => .unit) <$> stdoutWrite bytes
  | .stderrWrite bytes => (fun _ => .unit) <$> stderrWrite bytes
  | .stdoutLine bytes => (fun _ => .unit) <$> stdoutLine bytes
  | .stderrLine bytes => (fun _ => .unit) <$> stderrLine bytes
  | .stdinLine => .line <$> stdinLine
  | .stdinReadToEnd => .bytes <$> stdinReadToEnd
  | .stdinBytes => .chunk <$> stdinBytes
  | .spawn cmd io => .handle <$> spawn x cmd io
  | .waitAny handles => (fun w => .finished w.1 w.2) <$> waitAny handles
  | .cmdExecExitCode cmd => .exit <$> cmdExecExitCode x cmd
  | .cmdExecStatus cmd => .exit <$> cmdExecStatus x cmd
  | .cmdExecOutput cmd => .output <$> cmdExecOutput x cmd
  | .cmdExecOutputInheritStdin cmd => .output <$> cmdExecOutputInheritStdin x cmd

/-- What `cmd_exec_exit_code` makes of its job. -/
def exitCodeOf (finished : Finished) : Except PlatformError Reply :=
  match finished.exit with
  | .code code => .ok (.exit code)
  | .signal _ => .error killedBySignal

/-- What `cmd_exec_status` makes of its job. -/
def statusOf (finished : Finished) : Except PlatformError Reply :=
  match finished.exit with
  | .code code => .ok (.exit code)
  | .signal signal => .ok (.exit (-signal))

/-- What the two `cmd_exec_output*` effects make of their job. -/
def outputOf (finished : Finished) : Except PlatformError Reply := .ok (.output (execOutput finished))

namespace Request

/-- The command a `cmd_exec_*` effect runs, its plan, and what it makes of the finished job. -/
def exec : Request → Option (Cmd × IoPlan × (Finished → Except PlatformError Reply))
  | .cmdExecExitCode cmd => some (cmd, .inherit, exitCodeOf)
  | .cmdExecStatus cmd => some (cmd, .inherit, statusOf)
  | .cmdExecOutput cmd => some (cmd, .capture .null, outputOf)
  | .cmdExecOutputInheritStdin cmd => some (cmd, .capture .inherit, outputOf)
  | _ => none

def child : Request → Option (Cmd × IoPlan)
  | .spawn cmd io => some (cmd, io)
  | r => r.exec.map fun c => (c.1, c.2.1)

end Request

section Child

variable {x : Executor σ} {r : Request} {cmd : Cmd} {io : IoPlan} {p : VfsPlatform σ}
  {report : Finished → Except PlatformError Reply}

theorem exec_of_child (hr : r.child = some (cmd, io)) :
    r = .spawn cmd io ∨ ∃ report, r.exec = some (cmd, io, report) := by
  cases r <;> simp_all [Request.exec, Request.child]

theorem spawn_waitAny {α : Type} (h : p.runs x cmd io = .ok result)
    (k : JobHandle × Finished → Effect σ α) :
    (do let handle ← spawn x cmd io
        let w ← waitAny [handle]
        k w) p = k (⟨p.nextHandle⟩, finishedOf io result) (p.collected x cmd io result) := by
  rw [Op.bind_ok (spawn_of_ok h), Op.bind_ok collect_spawned]

theorem spawn_bind_of_error {α : Type} (h : p.runs x cmd io = .error e)
    (k : JobHandle → Effect σ α) :
    (spawn x cmd io >>= k) p =
      (.error e, { p.drained io with executor := p.executorAfter x cmd io }) :=
  Op.bind_error (spawn_of_error h)

/-- **A `cmd_exec_*` effect whose child ran** reports on that child alone, and leaves no job. -/
theorem perform_exec (hr : r.exec = some (cmd, io, report))
    (h : p.runs x cmd io = .ok result) :
    perform x r p = (report (finishedOf io result), p.collected x cmd io result) := by
  cases r with
  | cmdExecExitCode c =>
    obtain ⟨rfl, rfl, rfl⟩ : c = cmd ∧ IoPlan.inherit = io ∧ exitCodeOf = report := by
      simpa [Request.exec] using hr
    rw [perform, Op.map_apply, cmdExecExitCode, spawn_waitAny h, exitCodeOf]
    obtain ⟨exit, captured⟩ := finishedOf IoPlan.inherit result
    cases exit <;> rfl
  | cmdExecStatus c =>
    obtain ⟨rfl, rfl, rfl⟩ : c = cmd ∧ IoPlan.inherit = io ∧ statusOf = report := by
      simpa [Request.exec] using hr
    rw [perform, Op.map_apply, cmdExecStatus, spawn_waitAny h, statusOf]
    obtain ⟨exit, captured⟩ := finishedOf IoPlan.inherit result
    cases exit <;> rfl
  | cmdExecOutput c =>
    obtain ⟨rfl, rfl, rfl⟩ : c = cmd ∧ IoPlan.capture .null = io ∧ outputOf = report := by
      simpa [Request.exec] using hr
    rw [perform, Op.map_apply, cmdExecOutput, execCapturing, spawn_waitAny h]
    rfl
  | cmdExecOutputInheritStdin c =>
    obtain ⟨rfl, rfl, rfl⟩ : c = cmd ∧ IoPlan.capture .inherit = io ∧ outputOf = report := by
      simpa [Request.exec] using hr
    rw [perform, Op.map_apply, cmdExecOutputInheritStdin, execCapturing, spawn_waitAny h]
    rfl
  | _ => exact absurd hr (by simp [Request.exec])

/-- **An effect whose child did not run** has only set the child's input aside. -/
theorem perform_of_error (hr : r.child = some (cmd, io))
    (h : p.runs x cmd io = .error e) :
    perform x r p = (.error e, { p.drained io with executor := p.executorAfter x cmd io }) := by
  cases r with
  | spawn c i =>
    obtain ⟨rfl, rfl⟩ : c = cmd ∧ i = io := by simpa [Request.child] using hr
    rw [perform, Op.map_apply, spawn_of_error h]
    rfl
  | cmdExecExitCode c =>
    obtain ⟨rfl, rfl⟩ : c = cmd ∧ IoPlan.inherit = io := by
      simpa [Request.child, Request.exec] using hr
    rw [perform, Op.map_apply, cmdExecExitCode, spawn_bind_of_error h]
    rfl
  | cmdExecStatus c =>
    obtain ⟨rfl, rfl⟩ : c = cmd ∧ IoPlan.inherit = io := by
      simpa [Request.child, Request.exec] using hr
    rw [perform, Op.map_apply, cmdExecStatus, spawn_bind_of_error h]
    rfl
  | cmdExecOutput c =>
    obtain ⟨rfl, rfl⟩ : c = cmd ∧ IoPlan.capture .null = io := by
      simpa [Request.child, Request.exec] using hr
    rw [perform, Op.map_apply, cmdExecOutput, execCapturing, spawn_bind_of_error h]
    rfl
  | cmdExecOutputInheritStdin c =>
    obtain ⟨rfl, rfl⟩ : c = cmd ∧ IoPlan.capture .inherit = io := by
      simpa [Request.child, Request.exec] using hr
    rw [perform, Op.map_apply, cmdExecOutputInheritStdin, execCapturing, spawn_bind_of_error h]
    rfl
  | _ => exact absurd hr (by simp [Request.child, Request.exec])

theorem perform_spawn (h : p.runs x cmd io = .ok result) :
    perform x (.spawn cmd io) p = (.ok (.handle ⟨p.nextHandle⟩), p.spawned x cmd io result) := by
  rw [perform, Op.map_apply, spawn_of_ok h]
  rfl

end Child

/-- One effect of a run: the platform it found, and what was asked. -/
structure Step (σ : Type) where
  before : VfsPlatform σ
  request : Request

namespace Step

variable (x : Executor σ) (s : Step σ)

def reply : Except PlatformError Reply := (perform x s.request s.before).1

def after : VfsPlatform σ := (perform x s.request s.before).2

end Step

def steps (x : Executor σ) (p : VfsPlatform σ) : List Request → List (Step σ)
  | [] => []
  | r :: rs => ⟨p, r⟩ :: steps x (perform x r p).2 rs

def final (x : Executor σ) (p : VfsPlatform σ) : List Request → VfsPlatform σ
  | [] => p
  | r :: rs => final x (perform x r p).2 rs

end Platform

end Seahaven
