import Seahaven.Lib.Streams
import Mathlib.Data.PNat.Basic
import Mathlib.Logic.Relation

/-!
# Pipelines

`spawn_pipeline_processes` starts the stages of a pipeline from left to right, and
`wait_for_pipeline_processes_and_update_status` waits for them in the same order. A pipe is a
queue of bounded length, a stage a worker that reads one and writes the next. Some stages are
started as tasks or processes, others run to their end before the loop goes on
(`StageKind.runsInline`).

1. `readerOf` and `writerOf` are how the loop hands out the ends of the pipes: each stage writes
   the pipe the next one reads (`writerOf_eq_readerOf`).
2. `Step` is one step of the loops or of a started stage.
3. What a stage will read in all does not depend on the order of the steps (`Inv.fresh`), so no
   more does what the pipeline writes (`output_of_finished`).
4. A pipeline is never stuck exactly when each stage that runs inside the loop, the last one
   apart, writes no more than its pipe holds (`neverStuck_iff`).
-/

namespace Seahaven.Shell

open Streams

/-! ## Stages -/

/-- The compound commands. -/
inductive CompoundKind
  | braceGroup
  | subshell
  | forClause
  | caseClause
  | ifClause
  | whileClause
  | untilClause
  | arithmetic
  | arithmeticForClause

/-- What a stage of a pipeline is. -/
inductive StageKind
  | builtin
  | function
  | external
  | compound (kind : CompoundKind)
  | functionDefinition
  | extendedTest

/-- Whether the loop that starts the stages waits for a stage to end: `execute_via_builtin` starts
a task unless the builtin runs in the current shell, `execute_via_external` starts a process, and
everything else is executed where it is. -/
def StageKind.runsInline (inCurrentShell : Bool) : StageKind → Bool
  | .builtin => inCurrentShell
  | .external => false
  | .function => true
  | .compound _ => true
  | .functionDefinition => true
  | .extendedTest => true

instance neZero_one : NeZero (1 : ℕ) := ⟨Nat.one_ne_zero⟩

structure Stage (β : Type) where
  kind : StageKind
  program : Worker β
  /-- The capacity of the pipe behind the stage. -/
  capacity : ℕ+

/-- A pipeline, the options it is run with, and its standard input. -/
structure Pipeline (β : Type) where
  stages : List (Stage β)
  /-- `run_last_pipeline_cmd_in_current_shell`. -/
  lastpipe : Bool
  /-- `enable_job_control`. -/
  jobControl : Bool
  stdin : List β

variable {β : Type}

namespace Pipeline

variable (p : Pipeline β)

abbrev len : Nat := p.stages.length

def runInCurrentShell (i : Nat) : Bool :=
  p.len == 1 || (i == p.len - 1 && p.lastpipe && !p.jobControl)

def runsInline (i : Nat) : Bool :=
  (p.stages[i]?).any fun st => st.kind.runsInline (p.runInCurrentShell i)

def program (i : Nat) : Worker β := (p.stages[i]?).elim .done Stage.program

def capacity (i : Nat) : ℕ+ := (p.stages[i]?).elim 1 Stage.capacity

/-! ## The pipes -/

/-- The ends of the pipes, in the order of the two vectors; the last reader is the `None` for the
first stage. -/
def pipeReaders : List (Option Nat) :=
  if 1 < p.len then (List.range (p.len - 1)).map some ++ [none] else []

def pipeWriters : List (Option Nat) :=
  if 1 < p.len then (List.range (p.len - 1)).map some else []

def readerOf (i : Nat) : Option Nat := (p.pipeReaders.reverse[i]?).join

def writerOf (i : Nat) : Option Nat := (p.pipeWriters.reverse[i]?).join

theorem writerOf_eq_readerOf {i : Nat} (h : i + 1 < p.len) :
    p.writerOf i = some (p.len - 2 - i) ∧ p.readerOf (i + 1) = some (p.len - 2 - i) := by
  have hlen : 1 < p.len := by omega
  unfold writerOf readerOf pipeWriters pipeReaders
  rw [if_pos hlen, if_pos hlen]
  constructor
  · rw [List.getElem?_reverse (by simp; omega), List.length_map, List.length_range,
      List.getElem?_map, List.getElem?_range (by omega)]
    exact congrArg some (by omega)
  · rw [List.getElem?_reverse (by simp; omega), List.length_append, List.length_map,
      List.length_range, List.getElem?_append_left (by simp; omega), List.getElem?_map,
      List.getElem?_range (by simp; omega)]
    exact congrArg some (by simp; omega)

theorem readerOf_zero : p.readerOf 0 = none := by
  unfold readerOf pipeReaders
  split_ifs <;> simp

theorem writerOf_last {i : Nat} (h : p.len ≤ i + 1) : p.writerOf i = none := by
  unfold writerOf pipeWriters
  split_ifs with hlen
  · rw [List.getElem?_eq_none (by simp; omega)]
    rfl
  · rfl

end Pipeline

/-! ## Steps -/

/-- A pipeline under way. `input i` is what stage `i` has yet to read: the standard input for the
first stage, the pipe for the others; `input len` is what the last stage has written. -/
structure PipelineState (β : Type) where
  program : Nat → Worker β
  input : Nat → List β
  started : Nat
  waited : Nat

namespace PipelineState

/-- The stage becomes `w`. -/
def become (s : PipelineState β) (i : Nat) (w : Worker β) : PipelineState β :=
  { s with program := Function.update s.program i w }

def setInput (s : PipelineState β) (i : Nat) (w : List β) : PipelineState β :=
  { s with input := Function.update s.input i w }

variable {s : PipelineState β} {i j : Nat} {w : Worker β} {x : List β}

@[simp] theorem become_self : (s.become i w).program i = w := Function.update_self ..
@[simp] theorem become_of_ne (h : j ≠ i) : (s.become i w).program j = s.program j :=
  Function.update_of_ne h ..
@[simp] theorem become_input : (s.become i w).input = s.input := rfl
@[simp] theorem become_started : (s.become i w).started = s.started := rfl
@[simp] theorem setInput_self : (s.setInput i x).input i = x := Function.update_self ..
@[simp] theorem setInput_of_ne (h : j ≠ i) : (s.setInput i x).input j = s.input j :=
  Function.update_of_ne h ..
@[simp] theorem setInput_program : (s.setInput i x).program = s.program := rfl
@[simp] theorem setInput_started : (s.setInput i x).started = s.started := rfl

end PipelineState

namespace Pipeline

variable (p : Pipeline β)

def init : PipelineState β where
  program := p.program
  input := Function.update (fun _ => []) 0 p.stdin
  started := 0
  waited := 0

def Free (s : PipelineState β) : Prop :=
  ∀ i, i + 1 = s.started → p.runsInline i = true → s.program i = .done

/-- Nobody writes what stage `i` reads any more. -/
def WriterGone (s : PipelineState β) : Nat → Prop
  | 0 => True
  | i + 1 => s.program i = .done

/-- Nobody reads what stage `i` writes any more. The end of the pipe to a stage that is yet to
start is held by the loop. -/
def ReaderGone (s : PipelineState β) (i : Nat) : Prop :=
  i + 1 < s.started ∧ s.program (i + 1) = .done

/-- There is room behind stage `i`; what the last stage writes leaves the pipeline. -/
def Room (s : PipelineState β) (i : Nat) : Prop :=
  i + 1 < p.len → (s.input (i + 1)).length < p.capacity i

/-- One step of the loops or of a started stage. -/
inductive Step : PipelineState β → PipelineState β → Prop
  | start (s : PipelineState β) : s.started < p.len → p.Free s →
    Step s { s with started := s.started + 1 }
  | wait (s : PipelineState β) : s.started = p.len → p.Free s → s.waited < p.len →
    s.program s.waited = .done → Step s { s with waited := s.waited + 1 }
  | write (s : PipelineState β) (i : Nat) (b : β) (next : Worker β) : i < s.started →
    s.program i = .write b next → ¬ ReaderGone s i → p.Room s i →
    Step s ((s.become i next).setInput (i + 1) (s.input (i + 1) ++ [b]))
  | broken (s : PipelineState β) (i : Nat) (b : β) (next : Worker β) : i < s.started →
    s.program i = .write b next → ReaderGone s i → Step s (s.become i .done)
  | read (s : PipelineState β) (i : Nat) (b : β) (rest : List β)
    (next : Option β → Worker β) : i < s.started → s.program i = .read next →
    s.input i = b :: rest → Step s ((s.become i (next (some b))).setInput i rest)
  | eof (s : PipelineState β) (i : Nat) (next : Option β → Worker β) : i < s.started →
    s.program i = .read next → s.input i = [] → WriterGone s i →
    Step s (s.become i (next none))

def Reachable (s : PipelineState β) : Prop := Relation.ReflTransGen p.Step p.init s

def NeverStuck : Prop :=
  ∀ s, p.Reachable s → (∃ i, i < p.len ∧ s.program i ≠ .done) → ∃ s', p.Step s s'

/-- What stage `i` is given to read in all. -/
def total : Nat → List β
  | 0 => p.stdin
  | i + 1 => (p.program i).out (total i)

/-- What each stage that runs inside the loop, the last one apart, writes fits into its pipe. -/
def Fits : Prop :=
  ∀ i, i + 1 < p.len → p.runsInline i = true → (p.total (i + 1)).length ≤ p.capacity i

/-! ## What is still to be read -/

/-- What stage `i` will read in all from here on. -/
def pending (s : PipelineState β) : Nat → List β
  | 0 => s.input 0
  | i + 1 => s.input (i + 1) ++ (s.program i).out (pending s i)

theorem pending_congr {s s' : PipelineState β} {n : Nat} (hin : ∀ i ≤ n, s'.input i = s.input i)
    (hprog : ∀ i < n, s'.program i = s.program i) {i : Nat} (hi : i ≤ n) :
    pending s' i = pending s i := by
  induction i with
  | zero => exact hin 0 hi
  | succ i ih =>
    change s'.input (i + 1) ++ _ = s.input (i + 1) ++ _
    rw [hin _ hi, hprog i hi, ih (by omega)]

theorem pending_of_pending {s s' : PipelineState β} {n : Nat}
    (hin : ∀ i > n, s'.input i = s.input i) (hprog : ∀ i ≥ n, s'.program i = s.program i)
    (h : pending s' n = pending s n) {i : Nat} (hi : n ≤ i) : pending s' i = pending s i := by
  induction i, hi using Nat.le_induction with
  | base => exact h
  | succ i hi ih =>
    change s'.input (i + 1) ++ _ = s.input (i + 1) ++ _
    rw [hin _ (by omega), hprog i hi, ih]

theorem pending_write {s : PipelineState β} {i : Nat} {b : β} {next : Worker β}
    (hprog : s.program i = .write b next) :
    pending ((s.become i next).setInput (i + 1) (s.input (i + 1) ++ [b])) (i + 1) =
      pending s (i + 1) := by
  have hi : pending ((s.become i next).setInput (i + 1) (s.input (i + 1) ++ [b])) i =
      pending s i := by
    refine pending_congr (n := i) ?_ ?_ (Nat.le_refl i)
    · intro j hj
      rw [PipelineState.setInput_of_ne (by omega), PipelineState.become_input]
    · intro j hj
      rw [PipelineState.setInput_program, PipelineState.become_of_ne (by omega)]
  change _ ++ Worker.out _ (pending _ i) = s.input (i + 1) ++ (s.program i).out (pending s i)
  rw [hi, hprog, PipelineState.setInput_self, PipelineState.setInput_program,
    PipelineState.become_self, List.append_assoc]
  rfl

theorem pending_read {s : PipelineState β} {i : Nat} {b : β} {rest : List β} {w : Worker β}
    (hin : s.input i = b :: rest) :
    pending s i = b :: pending ((s.become i w).setInput i rest) i := by
  cases i with
  | zero =>
    change s.input 0 = b :: ((s.become 0 w).setInput 0 rest).input 0
    rw [hin, PipelineState.setInput_self]
  | succ i =>
    have hi : pending ((s.become (i + 1) w).setInput (i + 1) rest) i = pending s i := by
      refine pending_congr (n := i) ?_ ?_ (Nat.le_refl i)
      · intro j hj
        rw [PipelineState.setInput_of_ne (by omega), PipelineState.become_input]
      · intro j hj
        rw [PipelineState.setInput_program, PipelineState.become_of_ne (by omega)]
    change s.input (i + 1) ++ (s.program i).out (pending s i) =
      b :: (_ ++ Worker.out _ (pending _ i))
    rw [hi, hin, PipelineState.setInput_self, PipelineState.setInput_program,
      PipelineState.become_of_ne (by omega)]
    rfl

theorem pending_eof {s : PipelineState β} {i : Nat} (hin : s.input i = [])
    (hgone : WriterGone s i) : pending s i = [] := by
  cases i with
  | zero => exact hin
  | succ i =>
    change s.program i = .done at hgone
    change s.input (i + 1) ++ (s.program i).out (pending s i) = []
    rw [hin, hgone]
    rfl

variable {p}

/-- **One step.** Only for stages that have been started does a step change what they will read
in all. -/
theorem Step.pending_eq {s s' : PipelineState β} (h : p.Step s s') {j : Nat}
    (hj : s.started ≤ j) : pending s' j = pending s j := by
  cases h with
  | start =>
    refine pending_congr (n := j) ?_ ?_ (Nat.le_refl j) <;>
    · intro _ _
      rfl
  | wait =>
    refine pending_congr (n := j) ?_ ?_ (Nat.le_refl j) <;>
    · intro _ _
      rfl
  | write i b next hi hprog _ _ =>
    refine pending_of_pending (n := i + 1) ?_ ?_ (pending_write hprog) (by omega)
    · intro k hk
      rw [PipelineState.setInput_of_ne (by omega), PipelineState.become_input]
    · intro k hk
      rw [PipelineState.setInput_program, PipelineState.become_of_ne (by omega)]
  | broken i b next hi hprog hgone =>
    obtain ⟨hlt, hdone⟩ := hgone
    refine pending_of_pending (n := i + 2) ?_ ?_ ?_ (by omega)
    · intro k hk
      rfl
    · intro k hk
      rw [PipelineState.become_of_ne (by omega)]
    · change s.input (i + 2) ++ ((s.become i .done).program (i + 1)).out _ =
        s.input (i + 2) ++ (s.program (i + 1)).out _
      rw [PipelineState.become_of_ne (by omega), hdone]
      rfl
  | read i b rest next hi hprog hin =>
    refine pending_of_pending (n := i + 1) ?_ ?_ ?_ (by omega)
    · intro k hk
      rw [PipelineState.setInput_of_ne (by omega), PipelineState.become_input]
    · intro k hk
      rw [PipelineState.setInput_program, PipelineState.become_of_ne (by omega)]
    · have hread := pending_read (w := next (some b)) hin
      change _ ++ Worker.out _ (pending _ i) = s.input (i + 1) ++ (s.program i).out (pending s i)
      rw [hread, hprog, PipelineState.setInput_of_ne (by omega), PipelineState.setInput_program,
        PipelineState.become_self]
      rfl
  | eof i next hi hprog hin hgone =>
    refine pending_of_pending (n := i + 1) ?_ ?_ ?_ (by omega)
    · intro k hk
      rfl
    · intro k hk
      rw [PipelineState.become_of_ne (by omega)]
    · have hsame : pending (s.become i (next none)) i = pending s i := by
        refine pending_congr (n := i) ?_ ?_ (Nat.le_refl i)
        · intro k hk
          rfl
        · intro k hk
          rw [PipelineState.become_of_ne (by omega)]
      change s.input (i + 1) ++ Worker.out _ (pending _ i) =
        s.input (i + 1) ++ (s.program i).out (pending s i)
      rw [hsame, pending_eof hin hgone, hprog, PipelineState.become_self]
      rfl

/-! ## The invariant -/

/-- What holds in every state of a run. -/
structure Inv (p : Pipeline β) (s : PipelineState β) : Prop where
  started_le : s.started ≤ p.len
  /-- A stage that is yet to start will read in all what it is given. -/
  fresh : ∀ i, s.started ≤ i → pending s i = p.total i
  bounded : ∀ i, i + 1 < p.len → (s.input (i + 1)).length ≤ p.capacity i
  /-- The loop has come past a stage only if what it wrote fits. -/
  passed : ∀ i, i + 1 < s.started → p.runsInline i = true →
    (p.total (i + 1)).length ≤ p.capacity i

theorem program_of_le {i : Nat} (h : p.len ≤ i) : p.program i = .done := by
  unfold program
  rw [List.getElem?_eq_none h]
  rfl

theorem inv_init : p.Inv p.init where
  started_le := Nat.zero_le _
  fresh i _ := by
    induction i with
    | zero => rfl
    | succ i ih =>
      change p.init.input (i + 1) ++ (p.program i).out (pending p.init i) =
        (p.program i).out (p.total i)
      rw [ih (Nat.zero_le i)]
      rfl
  bounded i _ := Nat.zero_le _
  passed i h := absurd h (Nat.not_lt_zero _)

/-- **Step lemma.** -/
theorem Inv.step {s s' : PipelineState β} (hinv : p.Inv s) (h : p.Step s s') : p.Inv s' := by
  have hfresh : ∀ i, s'.started ≤ i → pending s' i = p.total i := by
    intro i hi
    have hle : s.started ≤ s'.started := by
      cases h <;> simp [PipelineState.become, PipelineState.setInput]
    rw [h.pending_eq (by omega), hinv.fresh i (by omega)]
  cases h with
  | start hlt hfree =>
    refine ⟨hlt, hfresh, hinv.bounded, ?_⟩
    intro i hi hinl
    rcases Nat.lt_or_ge (i + 1) s.started with hi' | hi'
    · exact hinv.passed i hi' hinl
    · -- the loop comes past the stage it was inside: all it wrote is in its pipe
      change i + 1 < s.started + 1 at hi
      have hall : s.input (i + 1) ++ (s.program i).out (pending s i) = p.total (i + 1) :=
        hinv.fresh (i + 1) hi'
      rw [hfree i (by omega) hinl] at hall
      rw [← hall, Worker.out, List.append_nil]
      exact hinv.bounded i (by omega)
  | wait hall hfree hlt hdone => exact ⟨hinv.started_le, hfresh, hinv.bounded, hinv.passed⟩
  | write i b next hi hprog hgone hroom =>
    refine ⟨hinv.started_le, hfresh, ?_, hinv.passed⟩
    intro j hj
    by_cases hji : j = i
    · subst hji
      rw [PipelineState.setInput_self, List.length_append]
      exact hroom hj
    · rw [PipelineState.setInput_of_ne (by omega)]
      exact hinv.bounded j hj
  | broken i b next hi hprog hgone =>
    exact ⟨hinv.started_le, hfresh, hinv.bounded, hinv.passed⟩
  | read i b rest next hi hprog hin =>
    refine ⟨hinv.started_le, hfresh, ?_, hinv.passed⟩
    intro j hj
    by_cases hji : j + 1 = i
    · subst hji
      have hb := hinv.bounded j hj
      rw [hin, List.length_cons] at hb
      rw [PipelineState.setInput_self]
      omega
    · rw [PipelineState.setInput_of_ne hji]
      exact hinv.bounded j hj
  | eof i next hi hprog hin hgone =>
    exact ⟨hinv.started_le, hfresh, hinv.bounded, hinv.passed⟩

/-- **Run lemma.** -/
theorem Reachable.inv {s : PipelineState β} (h : p.Reachable s) : p.Inv s := by
  induction h with
  | refl => exact inv_init
  | tail _ hstep ih => exact ih.step hstep

/-! ## Progress -/

/-- **Readers.** If a started stage is about to read, some stage can take a step: what it waits
for is written, or waits itself for what is written before it. -/
theorem step_of_read {s : PipelineState β} {i : Nat} {next : Option β → Worker β}
    (hi : i < s.started) (hprog : s.program i = .read next) : ∃ s', p.Step s s' := by
  induction i generalizing next with
  | zero =>
    cases hin : s.input 0 with
    | nil => exact ⟨_, .eof s 0 next hi hprog hin trivial⟩
    | cons b rest => exact ⟨_, .read s 0 b rest next hi hprog hin⟩
  | succ i ih =>
    cases hin : s.input (i + 1) with
    | cons b rest => exact ⟨_, .read s (i + 1) b rest next hi hprog hin⟩
    | nil =>
      cases hw : s.program i with
      | done => exact ⟨_, .eof s (i + 1) next hi hprog hin hw⟩
      | read next' => exact ih (by omega) hw
      | write b next' =>
        have hroom : p.Room s i := by
          intro _
          rw [hin]
          exact (p.capacity i).pos
        refine ⟨_, .write s i b next' (by omega) hw ?_ hroom⟩
        rintro ⟨-, hdone⟩
        rw [hdone] at hprog
        cases hprog

/-- **Writers.** If a started stage is about to write, some stage can take a step, if there is
room behind the last stage that was started. -/
theorem step_of_write {s : PipelineState β}
    (hlast : ∀ i b next, i + 1 = s.started → s.program i = .write b next → p.Room s i)
    {n i : Nat} (hn : s.started = i + 1 + n) {b : β} {next : Worker β}
    (hprog : s.program i = .write b next) : ∃ s', p.Step s s' := by
  induction n generalizing i b next with
  | zero =>
    refine ⟨_, .write s i b next (by omega) hprog ?_ (hlast i b next (by omega) hprog)⟩
    rintro ⟨hlt, -⟩
    omega
  | succ n ih =>
    cases hr : s.program (i + 1) with
    | done => exact ⟨_, .broken s i b next (by omega) hprog ⟨by omega, hr⟩⟩
    | read next' => exact step_of_read (by omega) hr
    | write b' next' => exact ih (by omega) hr

theorem step_of_started {s : PipelineState β}
    (hlast : ∀ i b next, i + 1 = s.started → s.program i = .write b next → p.Room s i)
    {i : Nat} (hi : i < s.started) (hne : s.program i ≠ .done) : ∃ s', p.Step s s' := by
  cases hprog : s.program i with
  | done => exact absurd hprog hne
  | read next => exact step_of_read hi hprog
  | write b next => exact step_of_write hlast (n := s.started - (i + 1)) (by omega) hprog

theorem room_of_fits {s : PipelineState β} (hinv : p.Inv s) (hfits : p.Fits) {i : Nat}
    (hi : i + 1 = s.started) (hinl : p.runsInline i = true) {b : β} {next : Worker β}
    (hprog : s.program i = .write b next) : p.Room s i := by
  intro hlt
  have hall : s.input (i + 1) ++ (s.program i).out (pending s i) = p.total (i + 1) :=
    hinv.fresh (i + 1) (by omega)
  have hle := hfits i hlt hinl
  rw [← hall, hprog, List.length_append] at hle
  have hpos : 0 < ((Worker.write b next).out (pending s i)).length := Nat.succ_pos _
  omega

/-- **Progress.** -/
theorem progress {s : PipelineState β} (hinv : p.Inv s) (hfits : p.Fits) {i : Nat}
    (hi : i < p.len) (hne : s.program i ≠ .done) : ∃ s', p.Step s s' := by
  by_cases hfree : p.Free s
  · rcases Nat.lt_or_ge s.started p.len with hlt | hge
    · exact ⟨_, .start s hlt hfree⟩
    · have hall : s.started = p.len := Nat.le_antisymm hinv.started_le hge
      refine step_of_started (fun j b next hj _ => ?_) (hall ▸ hi) hne
      intro hlt
      omega
  · -- the loop is inside the stage it started last
    unfold Free at hfree
    push Not at hfree
    obtain ⟨j, hj, hinl, hjne⟩ := hfree
    refine step_of_started (fun k b next hk hprog => ?_) (by omega) hjne
    obtain rfl : k = j := by omega
    exact room_of_fits hinv hfits hk hinl hprog

/-! ## Every run ends -/

theorem Step.descends {s s' : PipelineState β} (hinv : p.Inv s) (h : p.Step s s') :
    Prod.GameAdd (· < ·) (fun f' f => ∃ i, i < p.len ∧ ∃ w, Worker.Below w (f i) ∧
        f' = Function.update f i w)
      (p.len - s'.started + (p.len - s'.waited), s'.program)
      (p.len - s.started + (p.len - s.waited), s.program) := by
  have hle := hinv.started_le
  cases h with
  | start hlt hfree =>
    refine .fst ?_
    change p.len - (s.started + 1) + (p.len - s.waited) < _
    omega
  | wait hall hfree hlt hdone =>
    refine .fst ?_
    change p.len - s.started + (p.len - (s.waited + 1)) < _
    omega
  | write i b next hi hprog hgone hroom =>
    refine .snd ⟨i, by omega, next, ?_, rfl⟩
    rw [hprog]
    exact .write b next
  | broken i b next hi hprog hgone =>
    refine .snd ⟨i, by omega, .done, ?_, rfl⟩
    rw [hprog]
    exact .cut b next
  | read i b rest next hi hprog hin =>
    refine .snd ⟨i, by omega, next (some b), ?_, rfl⟩
    rw [hprog]
    exact .read next (some b)
  | eof i next hi hprog hin hgone =>
    refine .snd ⟨i, by omega, next none, ?_, rfl⟩
    rw [hprog]
    exact .read next none

/-- **Termination.** Every run can be continued until nothing moves. -/
theorem exists_terminal {s : PipelineState β} (h : p.Reachable s) :
    ∃ t, p.Reachable t ∧ ∀ t', ¬ p.Step t t' := by
  have hwf := InvImage.wf (fun s : PipelineState β =>
    (p.len - s.started + (p.len - s.waited), s.program))
    (WellFounded.prod_gameAdd (Nat.lt_wfRel.wf)
      (wellFounded_update (Worker.below_wf (β := β)) p.len))
  induction s using hwf.induction with
  | _ s ih =>
    by_cases hstep : ∃ s', p.Step s s'
    · obtain ⟨s', hs⟩ := hstep
      exact ih s' (hs.descends h.inv) (h.tail hs)
    · push Not at hstep
      exact ⟨s, h, hstep⟩

theorem started_of_terminal {t : PipelineState β} (ht : p.Reachable t)
    (hend : ∀ t', ¬ p.Step t t') (hdone : ∀ i, i < p.len → t.program i = .done) :
    t.started = p.len ∧ p.len ≤ t.waited := by
  have hle := ht.inv.started_le
  have hfree : p.Free t := fun i hi _ => hdone i (by omega)
  have hall : t.started = p.len := by
    by_contra hne
    exact hend _ (.start t (by omega) hfree)
  refine ⟨hall, ?_⟩
  by_contra hlt
  exact hend _ (.wait t hall hfree (by omega) (hdone _ (by omega)))

theorem fits_of_neverStuck (h : p.NeverStuck) : p.Fits := by
  intro i hi hinl
  obtain ⟨t, ht, hend⟩ := exists_terminal (p := p) .refl
  have hdone : ∀ j, j < p.len → t.program j = .done := by
    intro j hj
    by_contra hne
    obtain ⟨t', hstep⟩ := h t ht ⟨j, hj, hne⟩
    exact hend t' hstep
  have hall := (started_of_terminal ht hend hdone).1
  exact ht.inv.passed i (by omega) hinl

/-- **Never stuck.** No state of a run stands still before every stage has finished, if and only
if what each stage that runs inside the loop, the last one apart, writes fits into its pipe. -/
theorem neverStuck_iff (p : Pipeline β) : p.NeverStuck ↔ p.Fits := by
  constructor
  · exact fits_of_neverStuck
  · rintro hfits s hs ⟨i, hi, hne⟩
    exact progress hs.inv hfits hi hne

/-- **One output.** Whatever the order of the steps, once every stage has finished the pipeline
has written what its last stage writes. -/
theorem output_of_finished {s : PipelineState β} (hs : p.Reachable s)
    (hdone : ∀ i, i < p.len → s.program i = .done) (hlen : 0 < p.len) :
    s.input p.len = p.total p.len := by
  obtain ⟨n, hn⟩ : ∃ n, p.len = n + 1 := ⟨p.len - 1, by omega⟩
  have hall := hs.inv.fresh p.len hs.inv.started_le
  rw [hn] at hall ⊢
  rw [← hall]
  change _ = s.input (n + 1) ++ (s.program n).out (pending s n)
  rw [hdone n (by omega), Worker.out, List.append_nil]

/-- A program that writes a letter, before one that copies it. -/
def copying : Pipeline Nat where
  stages :=
    [{ kind := .external, program := .write 7 .done, capacity := 1 },
      { kind := .external, program := .read fun b => b.elim .done (.write · .done), capacity := 1 }]
  lastpipe := false
  jobControl := false
  stdin := []

theorem output_of_copying : ∃ s, copying.Reachable s ∧ s.input 2 = copying.total 2 := by
  have hfree : ∀ s, copying.Free s := by
    rintro s (_ | _ | i) - hinl
    · cases hinl
    · cases hinl
    · cases hinl
  have h₁ : copying.Reachable _ := .tail .refl (.start copying.init (by decide) (hfree _))
  have h₂ := h₁.tail (.write _ 0 7 .done (by decide) rfl (fun h => absurd h.1 (by decide))
    fun _ => by decide)
  have h₃ := h₂.tail (.start _ (by decide) (hfree _))
  have h₄ := h₃.tail (.read _ 1 7 [] _ (by decide) rfl rfl)
  have h₅ := h₄.tail (.write _ 1 7 .done (by decide) rfl (fun h => absurd h.1 (by decide))
    fun h => absurd h (by decide))
  refine ⟨_, h₅, output_of_finished h₅ (fun i hi => ?_) (by decide)⟩
  match i, hi with
  | 0, _ => rfl
  | 1, _ => rfl

/-! ## A stage that writes too much -/

def writes : List β → Worker β
  | [] => .done
  | b :: w => .write b (writes w)

/-- A brace group that writes two letters into a pipe for one, before a program that reads one. -/
def overfull : Pipeline Nat where
  stages :=
    [{ kind := .compound .braceGroup, program := writes [1, 2], capacity := 1 },
      { kind := .external, program := .read fun _ => .done, capacity := 1 }]
  lastpipe := false
  jobControl := false
  stdin := []

theorem overfull_stuck : ¬ overfull.NeverStuck := fun h =>
  absurd (fits_of_neverStuck h 0 (by decide) rfl) (by decide)

/-- Without the brace group the same programs are never stuck. -/
example : ({ overfull with stages :=
    [{ kind := .external, program := writes [1, 2], capacity := 1 },
      { kind := .external, program := .read fun _ => .done, capacity := 1 }] } :
    Pipeline Nat).Fits := by
  intro i hi hinl
  match i, hi with
  | 0, _ => cases hinl

end Pipeline

end Seahaven.Shell
