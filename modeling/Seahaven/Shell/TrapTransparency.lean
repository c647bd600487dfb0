import Seahaven.Shell.TrapEffects

/-!
# When trap handlers cannot be seen

A program is run twice, with a handler installed and without it. What its commands see of the last
statuses and return is compared, and what each trap leaves.

1. `agrees_execute`: where no trap is seen by the next command, the two runs show the same.
2. `trapTransparent_iff`: the traps of the runs leave the records as they were, and the runs show
   the same, exactly where no trap runs a command.
-/

namespace Seahaven.Shell.Trapping

open Interp LoggedOp Seahaven.Shell.Trapping.Run

variable {ρ ε α : Type}

/-! ## What shows of a run -/

inductive Observation
  | saw (lastExitStatus : UInt8) (lastPipelineStatuses : List UInt8)
  | returned (status : UInt8)
  deriving DecidableEq

def Event.observation : Event ρ → Option Observation
  | .observed lastExitStatus lastPipelineStatuses => some (.saw lastExitStatus lastPipelineStatuses)
  | .returned status => some (.returned status)
  | .trapped .. => none

def Event.Harmless : Event ρ → Prop
  | .trapped _ before after => ∃ t, after = some t ∧ Alike before t
  | _ => True

def ShowsAlike (x : Run ρ ε α) : Prop := Agrees Event.Harmless Event.observation Alike x

def AlikeBy (d : Int) (s t : TrapShell ρ) : Prop :=
  Alike s t ∧ (s.lastExitStatusChangeCount : Int) = t.lastExitStatusChangeCount + d

def CountsAlike (x : Run ρ ε α) : Prop :=
  ∀ d, Agrees Event.Harmless Event.observation (AlikeBy d) x

theorem showsAlike_compositional : Compositional (ShowsAlike : ∀ {α : Type}, Run ρ ε α → Prop) :=
  agrees_compositional _ _ _

theorem countsAlike_compositional :
    Compositional (CountsAlike : ∀ {α : Type}, Run ρ ε α → Prop) where
  pure a _ := (agrees_compositional _ _ _).pure a
  fail e _ := (agrees_compositional _ _ _).fail e
  bind hx hf d := (agrees_compositional _ _ _).bind (hx d) fun a => hf a d
  attempt hx d := (agrees_compositional _ _ _).attempt (hx d)

namespace Alike

variable {s t : TrapShell ρ}

theorem world (h : Alike s t) : s.world = t.world := congrArg View.world h.view

theorem symm (h : Alike s t) : Alike t s := ⟨h.view.symm, h.functionCallDepth.symm⟩

theorem trans {u : TrapShell ρ} (h : Alike s t) (h' : Alike t u) : Alike s u :=
  ⟨h.view.trans h'.view, h.functionCallDepth.trans h'.functionCallDepth⟩

theorem refl (s : TrapShell ρ) : Alike s s := ⟨rfl, rfl⟩

theorem exists_alikeBy (h : Alike s t) : ∃ d, AlikeBy d s t :=
  ⟨(s.lastExitStatusChangeCount : Int) - t.lastExitStatusChangeCount, h, by omega⟩

end Alike

theorem deliver_of_harmless {r : Runner ρ ε} {suppress : Bool} {signal : TrapSignal}
    {s : TrapShell ρ} (h : ∀ k ∈ (deliver r suppress signal s).2.2, k.Harmless) :
    (deliver r suppress signal s).1 = .ok () ∧ Alike s (deliver r suppress signal s).2.1 ∧
      (deliver r suppress signal s).2.2.filterMap Event.observation = [] := by
  unfold deliver at h ⊢
  split at h
  · rename_i hhandled
    rw [if_pos hhandled]
    obtain ⟨t, hafter, halike⟩ := h _ (List.mem_singleton_self _)
    rcases hinvoke : invokeTrapHandler r suppress signal s with ⟨_ | result, s', log⟩
    · rw [hinvoke] at hafter
      cases hafter
    · rw [hinvoke] at hafter
      obtain rfl : s' = t := Option.some.inj hafter
      exact ⟨rfl, halike, rfl⟩
  · rename_i hhandled
    rw [if_neg hhandled]
    exact ⟨rfl, .refl s, rfl⟩

theorem alike_primitives (r : Runner ρ ε) (hr : r.Has ShowsAlike) :
    Primitives r CountsAlike ShowsAlike where
  inner := countsAlike_compositional
  outer := showsAlike_compositional
  outer_of_inner h s t hst hs ht := by
    obtain ⟨d, hd⟩ := hst.exists_alikeBy
    obtain ⟨hans, hstate, hlog⟩ := h d s t hd hs ht
    exact ⟨hans, hstate.1, hlog⟩
  read hf d s t hst _ _ := ⟨congrArg Except.ok (hf s t hst.1), hst, rfl⟩
  modify {f} hcount hf d s t hst _ _ := by
    refine ⟨rfl, ⟨hf s t hst.1, ?_⟩, rfl⟩
    change ((f s).lastExitStatusChangeCount : Int) = (f t).lastExitStatusChangeCount + d
    rw [hcount, hcount]
    exact hst.2
  setLastExitStatus status d s t hst _ _ := by
    refine ⟨rfl, ⟨⟨?_, hst.1.functionCallDepth⟩, ?_⟩, rfl⟩
    · exact congrArg (fun v : View ρ => { v with lastExitStatus := status }) hst.1.view
    · have hcount := hst.2
      change ((s.lastExitStatusChangeCount + 1 : Nat) : Int) =
        (t.lastExitStatusChangeCount + 1 : Nat) + d
      omega
  act f d s t hst _ _ := by
    have hview := hst.1.view
    refine ⟨?_, ⟨⟨?_, hst.1.functionCallDepth⟩, hst.2⟩, ?_⟩
    · exact congrArg (fun v => (f v).1.mapError Stop.error) hview
    · exact congrArg (fun v => { v with world := (f v).2 }) hview
    · exact congrArg (fun v => [Observation.saw v.lastExitStatus v.lastPipelineStatuses]) hview
  change f d s t hst _ _ := by
    have hview := hst.1.view
    refine ⟨?_, ⟨⟨?_, hst.1.functionCallDepth⟩, hst.2⟩, rfl⟩
    · exact congrArg (fun v => (f v.world).1.mapError Stop.error) hview
    · exact congrArg (fun v => { v with world := (f v.world).2 }) hview
  returned status d s t hst _ _ := ⟨rfl, hst, rfl⟩
  onClone rejoin adjust x hx d s t hst hs ht := by
    have hview := hst.1.view
    have hcloned : Alike
        { s.clone with world := { s.world with options := adjust s.world.options } }
        { t.clone with world := { t.world with options := adjust t.world.options } } := by
      refine ⟨?_, hst.1.functionCallDepth⟩
      exact congrArg (fun v : View ρ =>
        { v with world := { v.world with options := adjust v.world.options } }) hview
    obtain ⟨hans, hstate, hlog⟩ := hx _ _ hcloned hs ht
    have hrest := congrArg World.rest hstate.world
    refine ⟨?_, ⟨⟨?_, hst.1.functionCallDepth⟩, hst.2⟩, hlog⟩
    · exact congrArg Except.ok (Prod.ext hans hrest)
    · have hparent := congrArg₂ (fun (v : View ρ) child =>
        { v with world := { v.world with rest := rejoin v.world.rest child } }) hview hrest
      exact hparent
  counted {_ x} hx s t hst hs ht := by
    obtain ⟨d, hd⟩ := hst.exists_alikeBy
    obtain ⟨hans, hstate, hlog⟩ := hx d s t hd hs ht
    refine ⟨?_, hstate.1, hlog⟩
    have hsame : (s.lastExitStatusChangeCount == (x s).2.1.lastExitStatusChangeCount) =
        (t.lastExitStatusChangeCount == (x t).2.1.lastExitStatusChangeCount) := by
      have hbefore := hd.2
      have hafter := hstate.2
      rw [Bool.eq_iff_iff, beq_iff_eq, beq_iff_eq]
      omega
    unfold Run.counted
    rw [hans, hsame]
  deliver suppress signal s t hst hs ht := by
    obtain ⟨hans, hstate, hlog⟩ := deliver_of_harmless hs
    obtain ⟨hans', hstate', hlog'⟩ := deliver_of_harmless ht
    exact ⟨hans.trans hans'.symm, hstate.symm.trans (hst.trans hstate'), hlog.trans hlog'.symm⟩
  runner := hr

theorem alike_runner (S : Setting ρ ε) (n : Nat) : (runner S n).Has ShowsAlike :=
  has_runner S (fun n => alike_primitives (runner S n)) showsAlike_compositional
    (fun f _ _ hst _ _ => ⟨congrArg (fun w => Except.ok (f w)) hst.world, hst, rfl⟩) n

theorem agrees_execute (S : Setting ρ ε) (n : Nat) (suppress : Bool) (p : Program ρ ε) :
    ShowsAlike (Program.execute S (runner S n) suppress p) :=
  Program.holds (alike_primitives _ (alike_runner S n)) suppress p

/-! ## The traps of a run -/

def Event.Logged (S : Setting ρ ε) : Event ρ → Prop
  | .trapped signal before after => ∃ n suppress,
    after = (invokeTrapHandler (runner S n) suppress signal before).1.toOption.map
      fun _ => (invokeTrapHandler (runner S n) suppress signal before).2.1
  | _ => True

theorem logged_primitives (S : Setting ρ ε) (n : Nat)
    (hr : (runner S n).Has (Logs (Event.Logged S))) :
    Primitives (runner S n) (Logs (Event.Logged S)) (Logs (Event.Logged S)) where
  inner := logs_compositional _
  outer := logs_compositional _
  outer_of_inner h := h
  read _ _ _ hk := absurd hk List.not_mem_nil
  modify _ _ _ _ hk := absurd hk List.not_mem_nil
  setLastExitStatus _ _ _ hk := absurd hk List.not_mem_nil
  act _ _ _ hk := by
    rw [List.mem_singleton.1 hk]
    trivial
  change _ _ _ hk := absurd hk List.not_mem_nil
  returned _ _ _ hk := by
    rw [List.mem_singleton.1 hk]
    trivial
  onClone _ _ _ hx _ k hk := hx _ k hk
  counted hx s k hk := hx s k hk
  deliver suppress signal s k hk := by
    unfold Trapping.deliver at hk
    split at hk
    · rw [List.mem_singleton.1 hk]
      exact ⟨n, suppress, rfl⟩
    · exact absurd hk List.not_mem_nil
  runner := hr

theorem logged_execute (S : Setting ρ ε) (n : Nat) (suppress : Bool) (p : Program ρ ε) :
    Logs (Event.Logged S) (Program.execute S (runner S n) suppress p) := by
  have hrunner := has_runner S (logged_primitives S) (logs_compositional _)
    (fun _ _ _ hk => absurd hk List.not_mem_nil) n
  exact Program.holds (logged_primitives S n hrunner) suppress p

/-! ## When handlers cannot be seen -/

def TrapShell.install (s : TrapShell ρ) (signal : TrapSignal) (handler : Option String) :
    TrapShell ρ :=
  { s with traps := Function.update s.traps signal handler }

def execute (S : Setting ρ ε) (n : Nat) (p : Program ρ ε) : Run ρ ε ExecutionResult :=
  Program.execute S (runner S n) false p

def TrapsLeave (log : List (Event ρ)) : Prop :=
  ∀ signal before after, .trapped signal before after ∈ log → ∃ t, after = some t ∧ Kept before t

def TrapsSpared (S : Setting ρ ε) (log : List (Event ρ)) : Prop :=
  ∀ signal before after, .trapped signal before after ∈ log → Spared S before signal

def shown (S : Setting ρ ε) (n : Nat) (p : Program ρ ε) (s : TrapShell ρ) :
    Except (Stop ε) ExecutionResult × List Observation :=
  ((execute S n p s).1, (execute S n p s).2.2.filterMap Event.observation)

/-- The traps of both runs leave the records as they were, and the runs show the same. -/
structure TrapTransparent (S : Setting ρ ε) (n : Nat) (p : Program ρ ε) (s : TrapShell ρ)
    (signal : TrapSignal) (handler : String) : Prop where
  installed : TrapsLeave (execute S n p (s.install signal (some handler))).2.2
  without : TrapsLeave (execute S n p (s.install signal none)).2.2
  shows : shown S n p (s.install signal (some handler)) = shown S n p (s.install signal none)

variable {S : Setting ρ ε} {n : Nat} {p : Program ρ ε} {s : TrapShell ρ}

theorem trapsLeave_iff :
    TrapsLeave (execute S n p s).2.2 ↔ TrapsSpared S (execute S n p s).2.2 := by
  have hlogged := logged_execute S n false p s
  constructor
  · intro hleave signal before after hmem
    obtain ⟨m, suppress, hafter⟩ := hlogged _ hmem
    obtain ⟨t, rfl, hkept⟩ := hleave signal before after hmem
    refine (leaves_iff m suppress signal before).1 ?_
    rcases hinvoke : invokeTrapHandler (runner S m) suppress signal before with
      ⟨_ | result, s', log⟩
    · rw [hinvoke] at hafter
      cases hafter
    · rw [hinvoke] at hafter
      obtain rfl : t = s' := Option.some.inj hafter
      refine ⟨result, ?_, ?_⟩
      · rw [hinvoke]
      · rw [hinvoke]
        exact hkept
  · intro hspared signal before after hmem
    obtain ⟨m, suppress, hafter⟩ := hlogged _ hmem
    obtain ⟨log, hinvoke⟩ := invoke_of_spared (hspared signal before after hmem) m suppress
    rw [hinvoke] at hafter
    exact ⟨before, hafter, rfl, rfl, rfl⟩

theorem harmless_of_spared (h : TrapsSpared S (execute S n p s).2.2) :
    ∀ k ∈ (execute S n p s).2.2, k.Harmless := by
  intro k hk
  cases k with
  | observed _ _ => trivial
  | returned _ => trivial
  | trapped signal before after =>
    obtain ⟨m, suppress, hafter⟩ := logged_execute S n false p s _ hk
    obtain ⟨log, hinvoke⟩ := invoke_of_spared (h signal before after hk) m suppress
    rw [hinvoke] at hafter
    exact ⟨before, hafter, .refl before⟩

/-- **When trap handlers are transparent.** One trap leaves the records as they were exactly where
it runs no command. The traps of a run with a handler and without it do, and the runs show the same,
exactly where none of them runs a command. -/
theorem trapTransparent_iff (S : Setting ρ ε) :
    (∀ n suppress signal s, Leaves (runner S n) suppress signal s ↔ Spared S s signal) ∧
    ∀ n p s signal handler, TrapTransparent S n p s signal handler ↔
      TrapsSpared S (execute S n p (s.install signal (some handler))).2.2 ∧
        TrapsSpared S (execute S n p (s.install signal none)).2.2 := by
  refine ⟨leaves_iff, fun n p s signal handler => ⟨?_, ?_⟩⟩
  · rintro ⟨hinstalled, hwithout, -⟩
    exact ⟨trapsLeave_iff.1 hinstalled, trapsLeave_iff.1 hwithout⟩
  · rintro ⟨hinstalled, hwithout⟩
    have halike : Alike (s.install signal (some handler)) (s.install signal none) := ⟨rfl, rfl⟩
    obtain ⟨hanswer, -, hlog⟩ := agrees_execute S n false p _ _ halike
      (harmless_of_spared hinstalled) (harmless_of_spared hwithout)
    exact ⟨trapsLeave_iff.2 hinstalled, trapsLeave_iff.2 hwithout, Prod.ext hanswer hlog⟩

/-! ## A handler that is seen -/

def word (name : String) : Command Unit Unit :=
  .simple ⟨.done fun v => (.ok (some [name]), v.world), .done fun v => (.ok (), v.world),
    .done fun v => (.ok (), v.world)⟩

def piped (seq : Commands Unit Unit) : CompoundList Unit Unit :=
  .cons (.mk (.mk false seq) .nil) false .nil

/-- `false | false; :`. -/
def bothFail : Program Unit Unit :=
  [piped (.cons (word "false") (.cons (word "false") .nil)), piped (.cons (word ":") .nil)]

/-- The builtins `:` and `false`, and one handler. -/
def plainSetting : Setting Unit Unit where
  parse _ command := .ok (if command = ":" then [piped (.cons (word ":") .nil)] else [])
  function _ := .braceGroup .nil
  functionRedirects _ := .done fun v => (.ok (), v.world)
  enterFunction _ _ rest := rest
  leaveFunction w := (.ok (), w)
  maxFunctionCallDepthExceeded := ()
  unimplemented := ()
  dispatch args _ := .builtin (.plain fun v =>
    (.ok ⟨.normal, if args = ["false"] then 1 else 0⟩, v.world))
  noteCommand _ w := (.ok (), w)
  clearLastArg w := w
  afterCommand _ w := w
  displayError _ w := w
  intoResult _ _ := ⟨.normal, 1⟩
  output _ := ""
  rejoin parent _ := parent
  bareInputRedir _ := none

def plainShell : TrapShell Unit where
  lastExitStatus := 0
  lastExitStatusChangeCount := 0
  lastPipelineStatuses := [0]
  traps _ := none
  activeTrapSignals := []
  trapDeliverySuppressCount := 0
  functionCallDepth := 0
  depth := 0
  world := ⟨⟨false, false, false, false, false, false, false, false, false, none⟩, ()⟩

/-- **A handled failure.** `trap : ERR; false | false; :`. The last command sees the `PIPESTATUS`
of the handler. -/
theorem not_trapTransparent_err : Observation.saw 1 [0] ∈
      (shown plainSetting 3 bothFail (plainShell.install .err (some ":"))).2 ∧
    Observation.saw 1 [1, 1] ∈
      (shown plainSetting 3 bothFail (plainShell.install .err none)).2 ∧
    ¬ TrapTransparent plainSetting 3 bothFail plainShell .err ":" := by
  refine ⟨by decide +kernel, by decide +kernel, fun h => ?_⟩
  have hshown := congrArg (fun out => Observation.saw 1 [0] ∈ out.2) h.shows
  exact absurd hshown (by decide +kernel)

end Seahaven.Shell.Trapping
