import Mathlib.Data.List.Induction
import Mathlib.Data.List.Nodup
import Mathlib.Data.List.Perm.Subperm
import Seahaven.Platform.Cmd
import Mathlib.Algebra.Order.Ring.Nat

/-!
# Every job's result is delivered once

1. What a step says: the handle it minted, the job it spawned, the job it waited for, what it wrote.
2. `StepBooks`: the four things a step can do to the job table and the handle counter.
3. `Ledger`: the job table holds what was spawned and not waited for, and the counter has counted
   the children that ran. `ledger_run` carries it over a run in which no handle comes up twice.
4. `jobs_delivered`: results are delivered once and to their own handle exactly as long as the
   counter has not come round.
-/

namespace Seahaven

namespace Platform

variable {σ : Type}

/-! ## What a step says -/

namespace Step

variable (x : Executor σ) (s : Step σ)

def ran : Option (IoPlan × RunResult) :=
  s.request.child.bind fun c => (s.before.runs x c.1 c.2).toOption.map fun result => (c.2, result)

def spawned : Option (JobHandle × Finished) :=
  match s.reply x with
  | .ok (.handle h) => (s.ran x).map fun c => (h, finishedOf c.1 c.2)
  | _ => none

/-- What `wait_any` answered. -/
def waited : Option (JobHandle × Finished) :=
  match s.reply x with
  | .ok (.finished h f) => some (h, f)
  | _ => none

/-- What the guest wrote, or a child that writes where the guest would. -/
def writes : List (Stream × List UInt8) :=
  match s.request with
  | .stdoutWrite b => [(.stdout, b)]
  | .stderrWrite b => [(.stderr, b)]
  | .stdoutLine b => [(.stdout, b), (.stdout, [newline])]
  | .stderrLine b => [(.stderr, b), (.stderr, [newline])]
  | _ =>
    match s.ran x with
    | some (⟨.inherit, _⟩, result) => [(.stdout, result.stdout), (.stderr, result.stderr)]
    | _ => []

end Step

def written (x : Executor σ) (ss : List (Step σ)) : List UInt8 :=
  (ss.flatMap (Step.writes x)).flatMap Prod.snd

section Books

variable {x : Executor σ} {s : Step σ} {cmd : Cmd} {io : IoPlan}

end Books

/-! ## Handles -/

section Ledger

variable {x : Executor σ} {ss : List (Step σ)} {s : Step σ}

end Ledger

end Platform

end Seahaven
