import Mathlib.Data.Finset.Basic
import Mathlib.Data.List.Forall2

/-!
# Positional parameters

A frame of the call stack that introduces positional parameters shadows those of the frames below. A
sourced script is asked again at every access whether its list is empty.

1. `CallStack`, and `currentShellArgs` with its mutable form `setCurrentShellArgs`.
2. `shift`, `set` and reading as operations on a list.
3. `Session`: the calls in progress beside the stack. A call says once whether it introduces
   positional parameters (`Call.introduces`), and `ownArgs` is the list of the innermost that does.
4. `ownParameters_iff`: every operation of a run is on that list if and only if none is done while
   it is the emptied list of a sourced script, unless it would do nothing to the list below.
-/

namespace Seahaven.Shell.Positional

variable {τ : Type}

abbrev Args := List (List Char)

/-! ## The call stack -/

inductive ScriptCallType
  | source
  | run

inductive FrameType (τ : Type)
  | script (callType : ScriptCallType)
  | function
  | trapHandler (signal : τ)
  | eval
  | commandString
  | interactiveSession

structure Frame (τ : Type) where
  frameType : FrameType τ
  args : Args

structure CallStack (τ : Type) where
  frames : List (Frame τ)
  funcCallDepth : Nat
  scriptSourceDepth : Nat
  activeTrapSignals : Finset τ

/-- A call, with its arguments. -/
inductive Call (τ : Type)
  | script (callType : ScriptCallType) (args : Args)
  | function (args : Args)
  | trapHandler (signal : τ)
  | eval
  | commandString
  | interactiveSession

/-- The frame that a call pushes. -/
def Call.frame : Call τ → Frame τ
  | script callType args => ⟨.script callType, args⟩
  | function args => ⟨.function, args⟩
  | trapHandler signal => ⟨.trapHandler signal, []⟩
  | eval => ⟨.eval, []⟩
  | commandString => ⟨.commandString, []⟩
  | interactiveSession => ⟨.interactiveSession, []⟩

namespace CallStack

variable [DecidableEq τ]

/-- `push_script`, `push_function` and so on. -/
def push (stack : CallStack τ) (call : Call τ) : CallStack τ where
  frames := call.frame :: stack.frames
  funcCallDepth := match call with
    | .function _ => stack.funcCallDepth + 1
    | _ => stack.funcCallDepth
  scriptSourceDepth := match call with
    | .script .source _ => stack.scriptSourceDepth + 1
    | _ => stack.scriptSourceDepth
  activeTrapSignals := match call with
    | .trapHandler signal => insert signal stack.activeTrapSignals
    | _ => stack.activeTrapSignals

def pop (stack : CallStack τ) : CallStack τ :=
  match stack.frames with
  | [] => stack
  | frame :: frames =>
    { frames
      funcCallDepth := match frame.frameType with
        | .function => stack.funcCallDepth - 1
        | _ => stack.funcCallDepth
      scriptSourceDepth := match frame.frameType with
        | .script .source => stack.scriptSourceDepth - 1
        | _ => stack.scriptSourceDepth
      activeTrapSignals := match frame.frameType with
        | .trapHandler signal => stack.activeTrapSignals.erase signal
        | _ => stack.activeTrapSignals }

end CallStack

/-! ## The current arguments -/

/-- A frame that `current_shell_args` stops at. -/
def Frame.shadows (frame : Frame τ) : Bool :=
  match frame.frameType with
  | .function => true
  | .script .run => true
  | .script .source => !frame.args.isEmpty
  | _ => false

/-- The loop of `current_shell_args`. The list after the frames is that of the shell. -/
def currentArgs (shellArgs : Args) : List (Frame τ) → Args
  | [] => shellArgs
  | frame :: frames => if frame.shadows then frame.args else currentArgs shellArgs frames

/-- The loop of `current_shell_args_mut`, and what is written through its result. -/
def setCurrentArgs (shellArgs args : Args) : List (Frame τ) → List (Frame τ) × Args
  | [] => ([], args)
  | frame :: frames =>
    if frame.shadows then ({ frame with args } :: frames, shellArgs)
    else (frame :: (setCurrentArgs shellArgs args frames).1,
      (setCurrentArgs shellArgs args frames).2)

/-! ## Operations -/

/-- What `shift` and `set` do after their options are read, and the reading of parameters. -/
inductive ArgsOp
  | read
  | shift (n : Option Int)
  | set (positionalArgs : Args)

inductive Answer
  | args (args : Args)
  | success
  | invalidUsage

namespace ArgsOp

/-- `ShiftCommand::execute`. -/
def shiftArgs (n : Option Int) (args : Args) : Answer × Args :=
  let n := n.getD 1
  if n < 0 then (.invalidUsage, args)
  else if args.length < n.toNat then (.invalidUsage, args)
  else (.success, args.drop n.toNat)

/-- The end of `SetCommand::execute`. -/
def setArgs (positionalArgs args : Args) : Args :=
  let (args, skip) := match positionalArgs with
    | [] => (args, 0)
    | first :: rest =>
      if first = ['-'] then (if rest ≠ [] then [] else args, 1)
      else if first = ['-', '-'] then ([], 1)
      else ([], 0)
  args ++ positionalArgs.drop skip

def on : ArgsOp → Args → Answer × Args
  | read, args => (.args args, args)
  | shift n, args => shiftArgs n args
  | set positionalArgs, args => (.success, setArgs positionalArgs args)

end ArgsOp

/-! ## Sessions -/

/-- What happens to the call stack. -/
inductive Event (τ : Type)
  | call (call : Call τ)
  | pop
  | perform (op : ArgsOp)

/-- The shell, and the calls in progress. -/
structure Session (τ : Type) where
  callStack : CallStack τ
  args : Args
  calls : List (Call τ)

namespace Session

variable [DecidableEq τ]

def start (args : Args) : Session τ := ⟨⟨[], 0, 0, ∅⟩, args, []⟩

def currentShellArgs (s : Session τ) : Args := currentArgs s.args s.callStack.frames

def setCurrentShellArgs (s : Session τ) (args : Args) : Session τ :=
  { s with
    callStack := { s.callStack with frames := (setCurrentArgs s.args args s.callStack.frames).1 }
    args := (setCurrentArgs s.args args s.callStack.frames).2 }

def perform (s : Session τ) (op : ArgsOp) : Answer × Session τ :=
  ((op.on s.currentShellArgs).1, s.setCurrentShellArgs (op.on s.currentShellArgs).2)

def step (s : Session τ) : Event τ → Session τ
  | .call call => { s with callStack := s.callStack.push call, calls := call :: s.calls }
  | .pop => { s with callStack := s.callStack.pop, calls := s.calls.tail }
  | .perform op => (s.perform op).2

def run (s : Session τ) (events : List (Event τ)) : Session τ := events.foldl step s

end Session

/-! ## Own parameters -/

def Call.introduces : Call τ → Bool
  | script .run _ => true
  | script .source args => !args.isEmpty
  | function _ => true
  | _ => false

def ownArgs (shellArgs : Args) : List (Call τ) → List (Frame τ) → Args
  | call :: calls, frame :: frames =>
    if call.introduces then frame.args else ownArgs shellArgs calls frames
  | _, _ => shellArgs

/-- That list replaced, and all others as they are. -/
def setOwnArgs (shellArgs args : Args) : List (Call τ) → List (Frame τ) → List (Frame τ) × Args
  | call :: calls, frame :: frames =>
    if call.introduces then ({ frame with args } :: frames, shellArgs)
    else (frame :: (setOwnArgs shellArgs args calls frames).1,
      (setOwnArgs shellArgs args calls frames).2)
  | _, frames => (frames, args)

/-- The innermost call that introduces positional parameters has emptied them, and is not one of
those that shadow even then. -/
def EmptiedSource : List (Call τ) → List (Frame τ) → Prop
  | call :: calls, frame :: frames =>
    if call.introduces then (∃ args, call = .script .source args) ∧ frame.args = []
    else EmptiedSource calls frames
  | _, _ => False

/-- The innermost list that is not the emptied one of a sourced script. -/
def liveArgs (shellArgs : Args) : List (Call τ) → List (Frame τ) → Args
  | call :: calls, frame :: frames =>
    match call with
    | .script .source _ =>
      if frame.args = [] then liveArgs shellArgs calls frames else frame.args
    | _ => if call.introduces then frame.args else liveArgs shellArgs calls frames
  | _, _ => shellArgs

/-- The calls and returns match. -/
inductive Balanced : List (Event τ) → Prop
  | nil : Balanced []
  | perform (op : ArgsOp) {events : List (Event τ)} : Balanced events →
      Balanced (.perform op :: events)
  | call (call : Call τ) {during events : List (Event τ)} : Balanced during → Balanced events →
      Balanced (.call call :: during ++ .pop :: events)

namespace Session

variable [DecidableEq τ]

/-- An operation is on the own parameters. -/
structure OnOwn (s : Session τ) (op : ArgsOp) : Prop where
  answer : (s.perform op).1 = (op.on (ownArgs s.args s.calls s.callStack.frames)).1
  frames : (s.perform op).2.callStack.frames =
    (setOwnArgs s.args (op.on (ownArgs s.args s.calls s.callStack.frames)).2 s.calls
      s.callStack.frames).1
  args : (s.perform op).2.args =
    (setOwnArgs s.args (op.on (ownArgs s.args s.calls s.callStack.frames)).2 s.calls
      s.callStack.frames).2

/-- **Own parameters.** Along a run every operation is on the own parameters, and a call that
introduces some leaves all other lists as they were. -/
structure OwnParameters (s : Session τ) (events : List (Event τ)) : Prop where
  operations : ∀ before op after, events = before ++ .perform op :: after →
    (s.run before).OnOwn op
  others : ∀ before call during after,
    events = before ++ .call call :: during ++ .pop :: after →
      call.introduces = true → Balanced during →
        let returned := s.run (before ++ .call call :: during ++ [.pop])
        returned.callStack.frames = (s.run before).callStack.frames ∧
          returned.args = (s.run before).args

end Session

/-! ## Calls and their frames -/

/-- A frame is that of its call, and only those of calls that introduce parameters have any. -/
structure Call.Tracks (call : Call τ) (frame : Frame τ) : Prop where
  frameType : frame.frameType = call.frame.frameType
  introduces : frame.args ≠ [] → call.introduces = true

section Tracks

variable {shellArgs args : Args} {calls : List (Call τ)} {frames : List (Frame τ)}

theorem Call.tracks_frame (call : Call τ) : call.Tracks call.frame := by
  refine ⟨rfl, fun hargs => ?_⟩
  cases call with
  | script callType args =>
    cases callType with
    | source => simpa [introduces, frame] using hargs
    | run => rfl
  | function args => rfl
  | trapHandler signal => exact absurd rfl hargs
  | eval => exact absurd rfl hargs
  | commandString => exact absurd rfl hargs
  | interactiveSession => exact absurd rfl hargs

theorem Call.Tracks.shadows_iff {call : Call τ} {frame : Frame τ} (h : call.Tracks frame) :
    frame.shadows = true ↔ call.introduces = true ∧
      ¬((∃ args, call = .script .source args) ∧ frame.args = []) := by
  obtain ⟨htype, hargs⟩ := h
  unfold Frame.shadows
  rw [htype]
  cases call with
  | script callType args =>
    cases callType with
    | source =>
      show (!frame.args.isEmpty) = true ↔ _
      constructor
      · intro hne
        have hframe : frame.args ≠ [] := by simpa using hne
        exact ⟨hargs hframe, fun hsource => hframe hsource.2⟩
      · rintro ⟨-, hne⟩
        simpa using fun hnil => hne ⟨⟨args, rfl⟩, hnil⟩
    | run => simp [Call.frame, Call.introduces]
  | function args => simp [Call.frame, Call.introduces]
  | trapHandler signal => simp [Call.frame, Call.introduces]
  | eval => simp [Call.frame, Call.introduces]
  | commandString => simp [Call.frame, Call.introduces]
  | interactiveSession => simp [Call.frame, Call.introduces]

theorem currentArgs_eq_ownArgs (args : Args) (h : List.Forall₂ Call.Tracks calls frames)
    (hlive : ¬EmptiedSource calls frames) :
    currentArgs shellArgs frames = ownArgs shellArgs calls frames ∧
      setCurrentArgs shellArgs args frames = setOwnArgs shellArgs args calls frames := by
  induction h with
  | nil => exact ⟨rfl, rfl⟩
  | @cons call frame calls frames htracks _ ih =>
    unfold currentArgs ownArgs setCurrentArgs setOwnArgs
    unfold EmptiedSource at hlive
    by_cases hintroduces : call.introduces = true
    · rw [if_pos hintroduces] at hlive
      have hshadows : frame.shadows = true := htracks.shadows_iff.2 ⟨hintroduces, hlive⟩
      simp only [hshadows, hintroduces, if_true, and_self]
    · rw [if_neg hintroduces] at hlive
      have hshadows : ¬frame.shadows = true := fun h => hintroduces (htracks.shadows_iff.1 h).1
      simp only [hshadows, hintroduces, if_false, Bool.false_eq_true]
      obtain ⟨hcurrent, hset⟩ := ih hlive
      exact ⟨hcurrent, by rw [hset]⟩

theorem currentArgs_eq_liveArgs (h : List.Forall₂ Call.Tracks calls frames) :
    currentArgs shellArgs frames = liveArgs shellArgs calls frames := by
  induction h with
  | nil => rfl
  | @cons call frame calls frames htracks _ ih =>
    have hshadows := htracks.shadows_iff
    unfold currentArgs liveArgs
    cases call with
    | script callType args =>
      cases callType with
      | source =>
        show _ = if frame.args = [] then liveArgs shellArgs calls frames else frame.args
        by_cases hnil : frame.args = []
        · rw [if_pos hnil, if_neg fun h => (hshadows.1 h).2 ⟨⟨args, rfl⟩, hnil⟩, ih]
        · rw [if_neg hnil, if_pos (hshadows.2 ⟨htracks.introduces hnil, fun h => hnil h.2⟩)]
      | run => simp [hshadows, Call.introduces]
    | function args => simp [hshadows, Call.introduces]
    | trapHandler signal => simp [hshadows, Call.introduces, ih]
    | eval => simp [hshadows, Call.introduces, ih]
    | commandString => simp [hshadows, Call.introduces, ih]
    | interactiveSession => simp [hshadows, Call.introduces, ih]

theorem setCurrentArgs_eq_self : setCurrentArgs shellArgs args frames = (frames, shellArgs) ↔
      args = currentArgs shellArgs frames := by
  induction frames with
  | nil => simp [setCurrentArgs, currentArgs]
  | cons frame frames ih =>
    unfold setCurrentArgs currentArgs
    by_cases hshadows : frame.shadows = true
    · rw [if_pos hshadows, if_pos hshadows]
      constructor
      · intro h
        have hframe := (List.cons.inj (Prod.mk.inj h).1).1
        rw [← hframe]
      · rintro rfl
        rfl
    · rw [if_neg hshadows, if_neg hshadows, ← ih]
      constructor
      · intro h
        exact Prod.ext (List.cons.inj (Prod.mk.inj h).1).2 (Prod.mk.inj h).2
      · intro h
        rw [h]

theorem ownArgs_emptied (h : EmptiedSource calls frames) : ownArgs shellArgs calls frames = [] := by
  induction calls generalizing frames with
  | nil => exact h.elim
  | cons call calls ih =>
    cases frames with
    | nil => exact h.elim
    | cons frame frames =>
      unfold EmptiedSource at h
      unfold ownArgs
      split_ifs at h ⊢
      · exact h.2
      · exact ih h

theorem setCurrentArgs_emptied {own : Args} (htracks : List.Forall₂ Call.Tracks calls frames)
    (h : EmptiedSource calls frames) :
    setCurrentArgs shellArgs args frames = setOwnArgs shellArgs own calls frames ↔
      args = currentArgs shellArgs frames ∧ own = [] := by
  induction htracks with
  | nil => exact h.elim
  | @cons call frame calls frames hcall _ ih =>
    unfold EmptiedSource at h
    unfold setCurrentArgs setOwnArgs currentArgs
    by_cases hintroduces : call.introduces = true
    · rw [if_pos hintroduces] at h
      have hshadows : ¬frame.shadows = true := fun hs => (hcall.shadows_iff.1 hs).2 h
      rw [if_neg hshadows, if_pos hintroduces, if_neg hshadows, ← setCurrentArgs_eq_self]
      constructor
      · intro heq
        obtain ⟨hframes, hargs⟩ := Prod.mk.inj heq
        obtain ⟨hframe, hrest⟩ := List.cons.inj hframes
        refine ⟨Prod.ext hrest hargs, ?_⟩
        rw [← h.2, hframe]
      · rintro ⟨hset, rfl⟩
        rw [hset, ← h.2]
    · rw [if_neg hintroduces] at h
      have hshadows : ¬frame.shadows = true := fun hs => hintroduces (hcall.shadows_iff.1 hs).1
      rw [if_neg hshadows, if_neg hintroduces, if_neg hshadows, ← ih h]
      constructor
      · intro heq
        obtain ⟨hframes, hargs⟩ := Prod.mk.inj heq
        exact Prod.ext (List.cons.inj hframes).2 hargs
      · intro heq
        rw [heq]

theorem tracks_setCurrentArgs (h : List.Forall₂ Call.Tracks calls frames) :
    List.Forall₂ Call.Tracks calls (setCurrentArgs shellArgs args frames).1 := by
  induction h with
  | nil => exact .nil
  | cons htracks hrest ih =>
    unfold setCurrentArgs
    split_ifs with hshadows
    · refine .cons ⟨htracks.frameType, fun _ => ?_⟩ hrest
      exact (htracks.shadows_iff.1 hshadows).1
    · exact .cons htracks ih

end Tracks

/-! ## The own list -/

section SetOwnArgs

variable {shellArgs args : Args} {calls : List (Call τ)} {frames : List (Frame τ)}

theorem setOwnArgs_introduces {call : Call τ} {frame : Frame τ} (h : call.introduces = true) :
    setOwnArgs shellArgs args (call :: calls) (frame :: frames) =
      ({ frame with args } :: frames, shellArgs) := if_pos h

theorem setOwnArgs_passes {call : Call τ} {frame : Frame τ} (h : ¬call.introduces = true) :
    setOwnArgs shellArgs args (call :: calls) (frame :: frames) =
      (frame :: (setOwnArgs shellArgs args calls frames).1,
        (setOwnArgs shellArgs args calls frames).2) := if_neg h

theorem setOwnArgs_self :
    setOwnArgs shellArgs (ownArgs shellArgs calls frames) calls frames = (frames, shellArgs) := by
  induction calls generalizing frames with
  | nil => cases frames <;> rfl
  | cons call calls ih =>
    cases frames with
    | nil => rfl
    | cons frame frames =>
      unfold setOwnArgs ownArgs
      split_ifs
      · rfl
      · rw [ih]

theorem setOwnArgs_setOwnArgs (shellArgs args args' : Args) (calls : List (Call τ))
    (frames : List (Frame τ)) :
    setOwnArgs (setOwnArgs shellArgs args calls frames).2 args' calls
      (setOwnArgs shellArgs args calls frames).1 = setOwnArgs shellArgs args' calls frames := by
  induction calls generalizing frames with
  | nil => cases frames <;> rfl
  | cons call calls ih =>
    cases frames with
    | nil => rfl
    | cons frame frames =>
      by_cases hintroduces : call.introduces = true
      · simp only [setOwnArgs_introduces hintroduces]
      · simp only [setOwnArgs_passes hintroduces, ih]

end SetOwnArgs

/-! ## Runs -/

namespace Session

variable {s : Session τ}

def Sound (s : Session τ) : Prop := List.Forall₂ Call.Tracks s.calls s.callStack.frames

theorem sound_start (args : Args) : (start args : Session τ).Sound := .nil

/-- An operation on an emptied list of a sourced script does nothing to the list below, nor to an
empty one. -/
def Idle (op : ArgsOp) (below : Args) : Prop :=
  op.on below = ((op.on []).1, below) ∧ (op.on []).2 = []

/-- **Step.** An operation is on the own parameters if and only if these are not the emptied ones of
a sourced script, or it does nothing. -/
theorem Sound.onOwn_iff (h : s.Sound) (op : ArgsOp) :
    s.OnOwn op ↔ (EmptiedSource s.calls s.callStack.frames →
      Idle op (liveArgs s.args s.calls s.callStack.frames)) := by
  have hlive : s.currentShellArgs = liveArgs s.args s.calls s.callStack.frames :=
    currentArgs_eq_liveArgs h
  by_cases hemptied : EmptiedSource s.calls s.callStack.frames
  · rw [← hlive]
    have hown : ownArgs s.args s.calls s.callStack.frames = [] := ownArgs_emptied hemptied
    have hset : setCurrentArgs s.args (op.on s.currentShellArgs).2 s.callStack.frames =
        setOwnArgs s.args (op.on []).2 s.calls s.callStack.frames ↔
          (op.on s.currentShellArgs).2 = s.currentShellArgs ∧ (op.on []).2 = [] :=
      setCurrentArgs_emptied h hemptied
    constructor
    · rintro ⟨hanswer, hframes, hargs⟩ -
      rw [hown] at hanswer hframes hargs
      obtain ⟨hbelow, hempty⟩ := hset.1 (Prod.ext hframes hargs)
      exact ⟨Prod.ext hanswer hbelow, hempty⟩
    · intro hidle
      obtain ⟨hbelow, hempty⟩ := hidle hemptied
      have hwrite := hset.2 ⟨congrArg Prod.snd hbelow, hempty⟩
      constructor
      · rw [hown]
        exact congrArg Prod.fst hbelow
      · rw [hown]
        exact congrArg Prod.fst hwrite
      · rw [hown]
        exact congrArg Prod.snd hwrite
  · have hown : s.currentShellArgs = ownArgs s.args s.calls s.callStack.frames :=
      (currentArgs_eq_ownArgs (op.on []).2 h hemptied).1
    have hset : ∀ args, setCurrentArgs s.args args s.callStack.frames =
        setOwnArgs s.args args s.calls s.callStack.frames :=
      fun args => (currentArgs_eq_ownArgs args h hemptied).2
    refine iff_of_true ?_ fun hne => absurd hne hemptied
    constructor
    · show (op.on s.currentShellArgs).1 = _
      rw [hown]
    · show (setCurrentArgs s.args (op.on s.currentShellArgs).2 s.callStack.frames).1 = _
      rw [hown, hset]
    · show (setCurrentArgs s.args (op.on s.currentShellArgs).2 s.callStack.frames).2 = _
      rw [hown, hset]

/-- Only the own list is written, and the calls are those there were. -/
structure OwnOnly (s s' : Session τ) : Prop where
  calls : s'.calls = s.calls
  own : ∃ args, (s'.callStack.frames, s'.args) =
    setOwnArgs s.args args s.calls s.callStack.frames

theorem OwnOnly.refl (s : Session τ) : s.OwnOnly s := ⟨rfl, _, setOwnArgs_self.symm⟩

theorem OwnOnly.trans {s' s'' : Session τ} (h : s.OwnOnly s') (h' : s'.OwnOnly s'') :
    s.OwnOnly s'' := by
  obtain ⟨hcalls, args, hown⟩ := h
  obtain ⟨hcalls', args', hown'⟩ := h'
  refine ⟨hcalls'.trans hcalls, args', ?_⟩
  have hlast := setOwnArgs_setOwnArgs s.args args args' s.calls s.callStack.frames
  rw [← hown] at hlast
  rw [hown', hcalls]
  exact hlast

variable [DecidableEq τ]

theorem frames_pop (stack : CallStack τ) : stack.pop.frames = stack.frames.tail := by
  unfold CallStack.pop
  split
  · rename_i hnil
    rw [hnil]
    rfl
  · rename_i hcons
    rw [hcons]
    rfl

theorem Sound.step (h : s.Sound) (event : Event τ) : (s.step event).Sound := by
  cases event with
  | call call => exact .cons call.tracks_frame h
  | pop =>
    show List.Forall₂ Call.Tracks s.calls.tail s.callStack.pop.frames
    rw [frames_pop]
    have htail : ∀ {calls : List (Call τ)} {frames : List (Frame τ)},
        List.Forall₂ Call.Tracks calls frames →
          List.Forall₂ Call.Tracks calls.tail frames.tail := by
      rintro _ _ (_ | ⟨_, hrest⟩)
      · exact .nil
      · exact hrest
    exact htail h
  | perform op => exact tracks_setCurrentArgs h

theorem Sound.run (h : s.Sound) (events : List (Event τ)) : (s.run events).Sound := by
  induction events generalizing s with
  | nil => exact h
  | cons event events ih => exact ih (h.step event)

theorem run_append (s : Session τ) (events events' : List (Event τ)) :
    s.run (events ++ events') = (s.run events).run events' := List.foldl_append

theorem ownOnly_call {call : Call τ} {during : Session τ}
    (h : (s.step (.call call)).OwnOnly during) :
    s.OwnOnly (during.step .pop) ∧ (call.introduces = true →
      (during.step .pop).callStack.frames = s.callStack.frames ∧
        (during.step .pop).args = s.args) := by
  obtain ⟨hcalls, args, hown⟩ := h
  have hpop : (during.step .pop).callStack.frames = during.callStack.frames.tail := frames_pop _
  have hstart : (during.callStack.frames, during.args) =
      setOwnArgs s.args args (call :: s.calls) (call.frame :: s.callStack.frames) := hown
  have htail : (during.step .pop).calls = s.calls := by
    show during.calls.tail = s.calls
    rw [hcalls]
    rfl
  by_cases hintroduces : call.introduces = true
  · rw [setOwnArgs_introduces hintroduces] at hstart
    obtain ⟨hframes, hargs⟩ := Prod.mk.inj hstart
    have hsame : (during.step .pop).callStack.frames = s.callStack.frames := by
      rw [hpop, hframes, List.tail_cons]
    refine ⟨⟨htail, ownArgs s.args s.calls s.callStack.frames, ?_⟩, fun _ => ⟨hsame, hargs⟩⟩
    rw [setOwnArgs_self]
    exact Prod.ext hsame hargs
  · rw [setOwnArgs_passes hintroduces] at hstart
    obtain ⟨hframes, hargs⟩ := Prod.mk.inj hstart
    refine ⟨⟨htail, args, Prod.ext ?_ hargs⟩, fun h => absurd h hintroduces⟩
    rw [hpop, hframes, List.tail_cons]

/-- **Balanced runs.** If every operation is on the own parameters, only these are written. -/
theorem ownOnly_run {events : List (Event τ)} (hbalanced : Balanced events)
    (h : ∀ before op after, events = before ++ .perform op :: after →
      (s.run before).OnOwn op) : s.OwnOnly (s.run events) := by
  induction hbalanced generalizing s with
  | nil => exact OwnOnly.refl s
  | @perform op events _ ih =>
    have hop := h [] op events rfl
    have hfirst : s.OwnOnly (s.step (.perform op)) := ⟨rfl, _, Prod.ext hop.frames hop.args⟩
    refine hfirst.trans (ih fun before op' after hevents => ?_)
    exact h (.perform op :: before) op' after (by rw [hevents]; rfl)
  | @call call during events _ _ ihduring ihevents =>
    have hduring : (s.step (.call call)).OwnOnly ((s.step (.call call)).run during) := by
      refine ihduring fun before op after hevents => ?_
      refine h (.call call :: before) op (after ++ .pop :: events) ?_
      rw [hevents]
      simp
    have hrun : s.run (.call call :: during ++ .pop :: events) =
        (((s.step (.call call)).run during).step .pop).run events := run_append _ _ _
    rw [hrun]
    refine (ownOnly_call hduring).1.trans (ihevents fun before op after hevents => ?_)
    have hbefore := h (.call call :: during ++ .pop :: before) op after (by rw [hevents]; simp)
    have hstate : s.run (.call call :: during ++ .pop :: before) =
        (((s.step (.call call)).run during).step .pop).run before := run_append _ _ _
    rwa [hstate] at hbefore

/-- **Positional parameters.** Along a run all operations are on the own parameters, and the calls
that introduce some leave the other lists, if and only if no operation that does anything is done
where the own list is the emptied one of a sourced script. -/
theorem ownParameters_iff (args : Args) (events : List (Event τ)) :
    (start args).OwnParameters events ↔
      ∀ before op after, events = before ++ .perform op :: after →
        let s := (start args).run before
        EmptiedSource s.calls s.callStack.frames →
          Idle op (liveArgs s.args s.calls s.callStack.frames) := by
  have hop : ∀ before op, ((start args : Session τ).run before).OnOwn op ↔ _ :=
    fun before op => ((sound_start args).run before).onOwn_iff op
  constructor
  · intro h before op after hevents
    exact (hop before op).1 (h.operations before op after hevents)
  · intro h
    have hoperations : ∀ before op after, events = before ++ .perform op :: after →
        ((start args : Session τ).run before).OnOwn op :=
      fun before op after hevents => (hop before op).2 (h before op after hevents)
    refine ⟨hoperations, fun before call during after hevents hintroduces hbalanced => ?_⟩
    have hduring : (((start args).run before).step (.call call)).OwnOnly
        ((((start args).run before).step (.call call)).run during) := by
      refine ownOnly_run hbalanced fun before' op after' hduring => ?_
      have hrun := hoperations (before ++ .call call :: before') op (after' ++ .pop :: after)
        (by rw [hevents, hduring]; simp)
      rwa [run_append] at hrun
    have hreturned : (start args).run (before ++ .call call :: during ++ [.pop]) =
        ((((start args).run before).step (.call call)).run during).step .pop := by
      rw [run_append, run_append]
      rfl
    rw [hreturned]
    exact (ownOnly_call hduring).2 hintroduces

/-- A script that is sourced with `a` shifts it, and then reads the arguments of the shell. -/
theorem not_ownParameters_shifted : ¬(start [['x']] : Session Unit).OwnParameters
    [.call (.script .source [['a']]), .perform (.shift none), .perform .read] := by
  intro h
  have hread := (h.operations [.call (.script .source [['a']]), .perform (.shift none)] .read []
    rfl).answer
  have hargs : Answer.args [['x']] = Answer.args [] := hread
  cases hargs

end Session

end Seahaven.Shell.Positional
