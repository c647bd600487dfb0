import Seahaven.Lib.Follow
import Seahaven.Parser.Token

/-!
# The arguments of a simple command

`execute_in_pipeline` goes through the items of a simple command and builds its argument list: the
first word is replaced by its alias, and then says whether later assignments are arguments.

1. `assemble`: the loop over the items; `executeInPipeline`: what is done with its result.
2. `gather`: the fields of the items, one item after another. An alias is not put in place before
   all fields are there (`Gathered.args`).
3. `assembles_iff`: the argument list is that of the fields, and nothing panics, if and only if the
   first word of the command is not a word with a blank alias and nothing after it.
-/

namespace Seahaven.Shell.Assembly

open Seahaven.Parser Op

/-! ## Items -/

/-- The nodes of the syntax tree that items are made of. -/
structure Nodes where
  Word : Type
  Assignment : Type
  IoRedirect : Type
  ProcessSubstitution : Type

variable {N : Nodes} {σ ε κ α : Type}

inductive CommandPrefixOrSuffixItem (N : Nodes)
  | ioRedirect (redirect : N.IoRedirect)
  | word (w : N.Word)
  | assignmentWord (assignment : N.Assignment) (w : N.Word)
  | processSubstitution (substitution : N.ProcessSubstitution)

inductive CommandArg (N : Nodes)
  | string (s : List Char)
  | assignment (a : N.Assignment)

structure BuiltinFlags where
  disabled : Bool
  declarationBuiltin : Bool

/-- Why no argument list is built. After the error of a redirection is written, the command ends. -/
inductive Stop (ε : Type)
  | error (e : ε)
  | redirection
  | panic

/-- What the items do to the shell and to the open files of the command. -/
structure AssemblySteps (N : Nodes) (σ ε : Type) where
  fullExpandAndSplitWord : N.Word → Op σ ε (List (List Char))
  expandAssignment : N.Assignment → Op σ ε N.Assignment
  setupRedirect : N.IoRedirect → Op σ ε Unit
  writeError : ε → Op σ ε Unit
  /-- Answers the number the file is installed under. -/
  setupProcessSubstitution : N.ProcessSubstitution → Op σ ε Int
  aliases : σ → List Char → Option (List Char)
  builtins : σ → List Char → Option BuiltinFlags

def stopping (x : Op σ ε α) : Op σ (Stop ε) α := fun s => ((x s).1.mapError Stop.error, (x s).2)

/-! ## Aliases -/

def splitAsciiWhitespace (s : List Char) : List (List Char) :=
  (s.splitOnP isAsciiWhitespace).filter (· ≠ [])

/-- The alias of the first word is put in its place. -/
def replaceAlias (aliases : List Char → Option (List Char)) : List (List Char) → List (List Char)
  | [] => []
  | name :: rest =>
    match aliases name with
    | some value => splitAsciiWhitespace value ++ rest
    | none => name :: rest

/-! ## Assembling -/

structure Assembled (N : Nodes) where
  assignments : List N.Assignment
  args : List (CommandArg N)
  commandTakesAssignments : Bool

namespace Assembled

def empty : Assembled N := ⟨[], [], false⟩

def append (a : Assembled N) (args : List (CommandArg N)) : Assembled N :=
  { a with args := a.args ++ args }

end Assembled

/-- `/dev/fd/{fd}`. -/
def fdPath (fd : Int) : List Char := "/dev/fd/".toList ++ (toString fd).toList

def takesAssignments (builtins : List Char → Option BuiltinFlags) (name : List Char) : Bool :=
  (builtins name).any fun r => !r.disabled && r.declarationBuiltin

namespace AssemblySteps

variable (steps : AssemblySteps N σ ε)

def redirect (redirect : N.IoRedirect) : Op σ (Stop ε) Unit := do
  match ← attempt (stopping (steps.setupRedirect redirect)) with
  | .ok () => pure ()
  | .error (.error e) => do
    stopping (steps.writeError e)
    check (.error .redirection)
  | .error stop => check (.error stop)

/-- The first word that has fields is the name of the command. -/
def assembleName (a : Assembled N) (nextArgs : List (List Char)) :
    Op σ (Stop ε) (Assembled N) := do
  let aliases ← Op.read fun s => .ok (steps.aliases s)
  let nextArgs := replaceAlias aliases nextArgs
  match nextArgs with
  | [] => check (.error .panic)
  | firstArg :: _ => do
    let builtins ← Op.read fun s => .ok (steps.builtins s)
    pure { a with
      args := a.args ++ nextArgs.map .string
      commandTakesAssignments := takesAssignments builtins firstArg || a.commandTakesAssignments }

/-- The body of the loop. -/
def assembleItem (a : Assembled N) :
    CommandPrefixOrSuffixItem N → Op σ (Stop ε) (Assembled N)
  | .ioRedirect redirect => do
    steps.redirect redirect
    pure a
  | .processSubstitution substitution => do
    let fd ← stopping (steps.setupProcessSubstitution substitution)
    pure (a.append [.string (fdPath fd)])
  | .assignmentWord assignment w =>
    if a.args.isEmpty then pure { a with assignments := a.assignments ++ [assignment] }
    else if a.commandTakesAssignments then do
      let expanded ← stopping (steps.expandAssignment assignment)
      pure (a.append [.assignment expanded])
    else do
      let nextArgs ← stopping (steps.fullExpandAndSplitWord w)
      pure (a.append (nextArgs.map .string))
  | .word w => do
    let nextArgs ← stopping (steps.fullExpandAndSplitWord w)
    if a.args.isEmpty && !nextArgs.isEmpty then steps.assembleName a nextArgs
    else pure (a.append (nextArgs.map .string))

def assemble (items : List (CommandPrefixOrSuffixItem N)) : Op σ (Stop ε) (Assembled N) :=
  items.foldlM steps.assembleItem Assembled.empty

end AssemblySteps

/-! ## Executing -/

/-- What is done once the arguments are there. -/
inductive Dispatch (N : Nodes)
  | command (name : List Char) (assignments : List N.Assignment) (args : List (CommandArg N))
  | assignments (assignments : List N.Assignment)

def Assembled.dispatch (a : Assembled N) : Dispatch N :=
  match a.args.head? with
  | some (.string name) => .command name a.assignments a.args
  | _ => .assignments a.assignments

structure ExecutionSteps (N : Nodes) (σ ε κ : Type) extends AssemblySteps N σ ε where
  executeCommand : List Char → List N.Assignment → List (CommandArg N) → Op σ ε κ
  /-- Displays an error of the command and answers its result. -/
  errorResult : ε → σ → κ × σ
  applyAssignment : N.Assignment → Op σ ε Unit
  clearLastArgVariable : σ → σ
  lastExitStatusChangeCount : σ → Nat
  setLastExitStatusSuccess : σ → σ
  lastResult : σ → κ
  generalError : κ

namespace ExecutionSteps

variable (steps : ExecutionSteps N σ ε κ)

def executeDispatch (countBefore : Nat) : Dispatch N → Op σ (Stop ε) κ
  | .command name assignments args =>
    handle (fun e s => (.ok (steps.errorResult e s).1, (steps.errorResult e s).2))
      (fun s => steps.executeCommand name assignments args s) |> stopping
  | .assignments assignments => do
    assignments.forM fun assignment => stopping (steps.applyAssignment assignment)
    fun s =>
      let s := steps.clearLastArgVariable s
      let s :=
        if countBefore = steps.lastExitStatusChangeCount s then steps.setLastExitStatusSuccess s
        else s
      (.ok (steps.lastResult s), s)

/-- `SimpleCommand::execute_in_pipeline`. -/
def executeInPipeline (items : List (CommandPrefixOrSuffixItem N)) : Op σ (Stop ε) κ :=
  handle
    (fun
      | .redirection => pure steps.generalError
      | stop => check (.error stop))
    (do
      let countBefore ← Op.read fun s => .ok (steps.lastExitStatusChangeCount s)
      let assembled ← steps.assemble items
      steps.executeDispatch countBefore assembled.dispatch)

end ExecutionSteps

/-! ## Gathering -/

/-- What the item of the first field says of the command. -/
structure Heading where
  aliases : List Char → Option (List Char)
  takesAssignments : Bool

/-- The fields of the items, and the assignments before the first field. -/
structure Gathered (N : Nodes) where
  fields : List (CommandArg N)
  assignments : List N.Assignment
  heading : Option Heading

namespace Gathered

def empty : Gathered N := ⟨[], [], none⟩

/-- The fields of one more item, with the heading that they make if they are the first ones. -/
def give (g : Gathered N) (fields : List (CommandArg N)) (heading : Option Heading) :
    Gathered N where
  fields := g.fields ++ fields
  assignments := g.assignments
  heading := g.heading.or heading

def args (g : Gathered N) : List (CommandArg N) :=
  match g.heading, g.fields with
  | some heading, .string name :: rest =>
    (replaceAlias heading.aliases [name]).map .string ++ rest
  | _, fields => fields

def assembled (g : Gathered N) : Assembled N where
  assignments := g.assignments
  args := g.args
  commandTakesAssignments := g.heading.any Heading.takesAssignments

end Gathered

namespace AssemblySteps

variable (steps : AssemblySteps N σ ε)

def wordHeading (s : σ) : List (List Char) → Option Heading
  | [] => none
  | fields => some ⟨steps.aliases s,
      (replaceAlias (steps.aliases s) fields).head?.any (takesAssignments (steps.builtins s))⟩

def pathHeading : Heading := ⟨fun _ => none, false⟩

def gatherWord (g : Gathered N) (w : N.Word) : Op σ (Stop ε) (Gathered N) := do
  let fields ← stopping (steps.fullExpandAndSplitWord w)
  let heading ← Op.read fun s => .ok (steps.wordHeading s fields)
  pure (g.give (fields.map .string) heading)

def gatherItem (g : Gathered N) :
    CommandPrefixOrSuffixItem N → Op σ (Stop ε) (Gathered N)
  | .ioRedirect redirect => do
    steps.redirect redirect
    pure g
  | .processSubstitution substitution => do
    let fd ← stopping (steps.setupProcessSubstitution substitution)
    pure (g.give [.string (fdPath fd)] (some pathHeading))
  | .assignmentWord assignment w =>
    match g.heading with
    | none => pure { g with assignments := g.assignments ++ [assignment] }
    | some heading =>
      if heading.takesAssignments then do
        let expanded ← stopping (steps.expandAssignment assignment)
        pure (g.give [.assignment expanded] none)
      else steps.gatherWord g w
  | .word w => steps.gatherWord g w

def gather (items : List (CommandPrefixOrSuffixItem N)) : Op σ (Stop ε) (Gathered N) :=
  items.foldlM steps.gatherItem Gathered.empty

/-! ## Statement -/

def BlankAlias (w : N.Word) (s : σ) : Prop :=
  ∃ name s' value, steps.fullExpandAndSplitWord w s = (.ok [name], s') ∧
    steps.aliases s' name = some value ∧ value.all isAsciiWhitespace = true

end AssemblySteps

/-- **Assembling.** Nothing panics, the arguments are those of the fields, and the first of them is
the name of the command; if there are none, the assignments are applied. -/
structure Assembles (steps : ExecutionSteps N σ ε κ) (items : List (CommandPrefixOrSuffixItem N))
    (s : σ) : Prop where
  noPanic : (steps.executeInPipeline items s).1 ≠ .error .panic
  arguments : steps.assemble items s =
    ((steps.gather items s).1.map Gathered.assembled, (steps.gather items s).2)
  command : ∀ a s', steps.assemble items s = (.ok a, s') → a.args ≠ [] →
    ∃ name rest, a.args = .string name :: rest ∧
      a.dispatch = .command name a.assignments a.args
  assignments : ∀ a s', steps.assemble items s = (.ok a, s') → a.args = [] →
    a.dispatch = .assignments a.assignments

/-! ## Blank aliases -/

theorem splitAsciiWhitespace_eq_nil {value : List Char} :
    splitAsciiWhitespace value = [] ↔ value.all isAsciiWhitespace = true := by
  unfold splitAsciiWhitespace
  induction value with
  | nil => simp [List.splitOnP_nil]
  | cons c value ih =>
    rw [List.splitOnP_cons_eq_if_modifyHead, List.all_cons, Bool.and_eq_true]
    by_cases hc : isAsciiWhitespace c = true
    · rw [if_pos hc, and_iff_right hc, ← ih]
      simp
    · rw [if_neg hc]
      refine iff_of_false ?_ fun h => hc h.1
      cases hsplit : value.splitOnP isAsciiWhitespace with
      | nil => exact absurd hsplit (List.splitOnP_ne_nil _ _)
      | cons first rest => simp

variable {rest : List (List Char)}

section ReplaceAlias

variable {aliases : List Char → Option (List Char)} {name : List Char}

theorem replaceAlias_some {value : List Char} (h : aliases name = some value)
    (rest : List (List Char)) :
    replaceAlias aliases (name :: rest) = splitAsciiWhitespace value ++ rest := by
  simp only [replaceAlias, h]

theorem replaceAlias_none (h : aliases name = none) (rest : List (List Char)) :
    replaceAlias aliases (name :: rest) = name :: rest := by
  simp only [replaceAlias, h]

theorem replaceAlias_eq_nil : replaceAlias aliases (name :: rest) = [] ↔
      rest = [] ∧ ∃ value, aliases name = some value ∧ value.all isAsciiWhitespace = true := by
  cases halias : aliases name with
  | none => simp [replaceAlias_none halias]
  | some value =>
    rw [replaceAlias_some halias, List.append_eq_nil_iff, splitAsciiWhitespace_eq_nil, and_comm]
    simp

theorem replaceAlias_cons (rest : List (List Char)) :
    replaceAlias aliases (name :: rest) = replaceAlias aliases [name] ++ rest := by
  cases halias : aliases name with
  | none => rw [replaceAlias_none halias, replaceAlias_none halias, List.singleton_append]
  | some value => rw [replaceAlias_some halias, replaceAlias_some halias, List.append_nil]

end ReplaceAlias

/-! ## Computations that do not panic -/

/-- No failure of `x` is a panic. -/
def NeverPanics (x : Op σ (Stop ε) α) : Prop := ∀ s, (x s).1 ≠ .error .panic

section NeverPanics

variable {β : Type}

theorem neverPanics_pure (a : α) : NeverPanics (pure a : Op σ (Stop ε) α) := nofun

theorem neverPanics_stopping (x : Op σ ε α) : NeverPanics (stopping x) := by
  intro s
  show (x s).1.mapError Stop.error ≠ _
  cases (x s).1 <;> simp [Except.mapError]

theorem neverPanics_read (f : σ → α) :
    NeverPanics (Op.read fun s => .ok (f s) : Op σ (Stop ε) α) := nofun

theorem NeverPanics.bind {x : Op σ (Stop ε) α} {f : α → Op σ (Stop ε) β} (hx : NeverPanics x)
    (hf : ∀ a, NeverPanics (f a)) : NeverPanics (x >>= f) := by
  intro s
  cases h : x s with
  | mk r s' =>
    cases r with
    | error e =>
      rw [bind_error h]
      have hxs := hx s
      rw [h] at hxs
      simpa using hxs
    | ok a =>
      rw [bind_ok h]
      exact hf a s'

theorem neverPanics_foldlM {γ : Type} {f : α → γ → Op σ (Stop ε) α}
    (hf : ∀ a c, NeverPanics (f a c)) (cs : List γ) (a : α) : NeverPanics (cs.foldlM f a) := by
  induction cs generalizing a with
  | nil => exact neverPanics_pure a
  | cons c cs ih =>
    rw [List.foldlM_cons]
    exact (hf a c).bind ih

end NeverPanics

variable {a : Assembled N}

namespace AssemblySteps

variable (steps : AssemblySteps N σ ε)

theorem neverPanics_redirect (redirect : N.IoRedirect) :
    NeverPanics (steps.redirect redirect) := by
  intro s
  unfold AssemblySteps.redirect
  rw [bind_ok (attempt_apply _ s)]
  cases h : (stopping (steps.setupRedirect redirect) s).1 with
  | ok _ => nofun
  | error stop =>
    cases stop with
    | error e =>
      exact (neverPanics_stopping (steps.writeError e)).bind
        (f := fun _ => check (.error .redirection)) (fun _ _ => nofun) _
    | redirection => nofun
    | panic => exact absurd h (neverPanics_stopping _ s)

theorem neverPanics_gatherWord (g : Gathered N) (w : N.Word) :
    NeverPanics (steps.gatherWord g w) :=
  (neverPanics_stopping _).bind fun _ => (neverPanics_read _).bind fun _ => neverPanics_pure _

theorem neverPanics_gatherItem (g : Gathered N) (item : CommandPrefixOrSuffixItem N) :
    NeverPanics (steps.gatherItem g item) := by
  cases item with
  | ioRedirect redirect =>
    exact (steps.neverPanics_redirect redirect).bind fun _ => neverPanics_pure _
  | word w => exact steps.neverPanics_gatherWord g w
  | processSubstitution substitution =>
    exact (neverPanics_stopping _).bind fun _ => neverPanics_pure _
  | assignmentWord assignment w =>
    cases hheading : g.heading with
    | none =>
      simp only [gatherItem, hheading]
      exact neverPanics_pure _
    | some heading =>
      simp only [gatherItem, hheading]
      split_ifs
      · exact (neverPanics_stopping _).bind fun _ => neverPanics_pure _
      · exact steps.neverPanics_gatherWord g w

theorem neverPanics_gather (items : List (CommandPrefixOrSuffixItem N)) (g : Gathered N) :
    NeverPanics (items.foldlM steps.gatherItem g) :=
  neverPanics_foldlM steps.neverPanics_gatherItem items g

/-! ## One item -/

/-- `x` ends as `y` does, with what `y` gathers assembled. -/
def Mirrors (x : Op σ (Stop ε) (Assembled N)) (y : Op σ (Stop ε) (Gathered N)) (s : σ) : Prop :=
  x s = ((y s).1.map Gathered.assembled, (y s).2)

section Mirrors

variable {s : σ}

theorem mirrors_pure {g : Gathered N} (h : a = g.assembled) :
    Mirrors (pure a : Op σ (Stop ε) (Assembled N)) (pure g) s := by
  rw [h]
  rfl

theorem mirrors_bind {z : Op σ (Stop ε) α} {f : α → Op σ (Stop ε) (Assembled N)}
    {g : α → Op σ (Stop ε) (Gathered N)}
    (h : ∀ a s', z s = (.ok a, s') → Mirrors (f a) (g a) s') :
    Mirrors (z >>= f) (z >>= g) s := by
  unfold Mirrors
  cases hz : z s with
  | mk r s' =>
    cases r with
    | error e =>
      rw [bind_error hz, bind_error hz]
      rfl
    | ok a =>
      rw [bind_ok hz, bind_ok hz]
      exact h a s' hz

end Mirrors

end AssemblySteps

namespace Gathered

/-- There is a heading as soon as there is a field, and the arguments start with a name. -/
def Headed (g : Gathered N) : Prop :=
  match g.heading with
  | none => g.fields = []
  | some _ => g.fields ≠ [] ∧ ∃ name rest, g.args = .string name :: rest

variable {g : Gathered N}

theorem Headed.args_eq_nil (h : g.Headed) : g.args = [] ↔ g.fields = [] := by
  unfold Headed at h
  split at h
  · rename_i hheading
    simp [args, hheading]
  · obtain ⟨hfields, name, rest, hargs⟩ := h
    simp [hargs, hfields]

theorem Headed.heading_eq_none (h : g.Headed) : g.heading = none ↔ g.fields = [] := by
  unfold Headed at h
  split at h
  · rename_i hheading
    simp [hheading, h]
  · rename_i hheading
    simp [hheading, h.1]

theorem args_give_of_ne {fields : List (CommandArg N)} {heading : Option Heading}
    (h : g.fields ≠ []) (hheading : g.heading ≠ none) :
    (g.give fields heading).args = g.args ++ fields := by
  obtain ⟨first, rest, hfields⟩ := List.exists_cons_of_ne_nil h
  obtain ⟨head, hhead⟩ := Option.ne_none_iff_exists'.1 hheading
  unfold args give
  simp only [hfields, hhead, Option.or, List.cons_append]
  cases first <;> simp

theorem Headed.give (h : g.Headed) (hfields : g.fields ≠ []) (fields : List (CommandArg N))
    (heading : Option Heading) :
    (g.give fields heading).Headed ∧
      (g.give fields heading).assembled = g.assembled.append fields := by
  have hheading : g.heading ≠ none := fun hnone => hfields (h.heading_eq_none.1 hnone)
  have hargs : (g.give fields heading).args = g.args ++ fields :=
    args_give_of_ne hfields hheading
  obtain ⟨head, hhead⟩ := Option.ne_none_iff_exists'.1 hheading
  constructor
  · unfold Headed at h ⊢
    simp only [hhead] at h
    simp only [Gathered.give, hhead, Option.or]
    refine ⟨by simp [hfields], ?_⟩
    obtain ⟨-, name, rest, hrest⟩ := h
    refine ⟨name, rest ++ fields, ?_⟩
    have := hargs
    simp only [Gathered.give, hhead, Option.or] at this
    rw [this, hrest]
    rfl
  · unfold assembled Assembled.append
    rw [hargs]
    simp [Gathered.give, hhead, Option.or]

theorem Headed.giveWord {steps : AssemblySteps N σ ε} {s : σ} {name : List Char}
    (h : g.Headed) (hfields : g.fields = [])
    (hleft : replaceAlias (steps.aliases s) (name :: rest) ≠ []) :
    let heading := steps.wordHeading s (name :: rest)
    let g' := g.give ((name :: rest).map .string) heading
    g'.Headed ∧ g'.args = (replaceAlias (steps.aliases s) (name :: rest)).map .string := by
  have hnone : g.heading = none := h.heading_eq_none.2 hfields
  have hargs : (g.give ((name :: rest).map .string) (steps.wordHeading s (name :: rest))).args =
      (replaceAlias (steps.aliases s) (name :: rest)).map .string := by
    unfold args Gathered.give
    simp only [hfields, hnone, AssemblySteps.wordHeading, Option.or, List.map_cons,
      List.nil_append]
    rw [replaceAlias_cons rest, List.map_append]
  refine ⟨?_, hargs⟩
  unfold Headed
  simp only [hargs]
  simp only [Gathered.give, hnone, hfields, AssemblySteps.wordHeading, Option.or]
  obtain ⟨first, more, hmore⟩ := List.exists_cons_of_ne_nil hleft
  exact ⟨by simp, first, more.map .string, by rw [hmore, List.map_cons]⟩

theorem give_nil (g : Gathered N) : g.give [] none = g := by
  unfold Gathered.give
  cases hheading : g.heading <;> simp [Option.or, ← hheading]

end Gathered

variable {items : List (CommandPrefixOrSuffixItem N)}

namespace AssemblySteps

variable {steps : AssemblySteps N σ ε} {g : Gathered N} {s : σ}

variable {w : N.Word}

theorem gatherWord_later (h : g.Headed) (hfields : g.fields ≠ []) :
    Mirrors (do
      let nextArgs ← stopping (steps.fullExpandAndSplitWord w)
      pure (g.assembled.append (nextArgs.map .string))) (steps.gatherWord g w) s ∧
      ∀ g' s', steps.gatherWord g w s = (.ok g', s') → g'.Headed := by
  constructor
  · refine mirrors_bind fun fields s' _ => ?_
    exact mirrors_pure (h.give hfields _ _).2.symm
  · intro g' s' hgather
    obtain ⟨fields, s₁, -, hread⟩ := bind_eq_ok.1 hgather
    obtain ⟨heading, s₂, -, hpure⟩ := bind_eq_ok.1 hread
    cases hpure
    exact (h.give hfields _ _).1

variable {s' : σ}

theorem stopping_eq_ok {x : Op σ ε α} {a : α} :
    stopping x s = (.ok a, s') ↔ x s = (.ok a, s') := by
  unfold stopping
  rcases x s with ⟨_ | _, _⟩ <;> simp [Except.mapError]

theorem stopping_ok {x : Op σ ε α} {a : α} (h : x s = (.ok a, s')) :
    stopping x s = (.ok a, s') := stopping_eq_ok.2 h

theorem mirrors_assembleName (h : g.Headed) (hfields : g.fields = []) {name : List Char}
    (hleft : replaceAlias (steps.aliases s) (name :: rest) ≠ []) :
    Mirrors (steps.assembleName g.assembled (name :: rest)) (do
      let heading ← Op.read fun s => .ok (steps.wordHeading s (name :: rest))
      pure (g.give ((name :: rest).map .string) heading)) s := by
  obtain ⟨-, hargs⟩ := h.giveWord hfields hleft
  obtain ⟨first, more, hmore⟩ := List.exists_cons_of_ne_nil hleft
  have hnone : g.heading = none := h.heading_eq_none.2 hfields
  have hnil : g.args = [] := h.args_eq_nil.2 hfields
  have hname : steps.assembleName g.assembled (name :: rest) s =
      (.ok ⟨g.assignments, (replaceAlias (steps.aliases s) (name :: rest)).map .string,
        takesAssignments (steps.builtins s) first⟩, s) := by
    refine (read_bind_ok (g := fun s => .ok (steps.aliases s)) rfl).trans ?_
    simp only [hmore]
    refine (read_bind_ok (g := fun s => .ok (steps.builtins s)) rfl).trans ?_
    simp [Gathered.assembled, hnil, hnone]
  refine hname.trans ?_
  show _ = (Except.ok (Gathered.assembled
    (g.give ((name :: rest).map .string) (steps.wordHeading s (name :: rest)))), s)
  unfold Gathered.assembled
  rw [hargs]
  simp [Gathered.give, hnone, wordHeading, hmore]

theorem mirrors_word (h : g.Headed) (hfields : g.fields = [])
    (hclear : ¬steps.BlankAlias w s) :
    Mirrors (steps.assembleItem g.assembled (.word w)) (steps.gatherWord g w) s ∧
      ∀ g' s', steps.gatherWord g w s = (.ok g', s') → g'.Headed := by
  have hnil : g.assembled.args = [] := h.args_eq_nil.2 hfields
  have hleft : ∀ name rest s',
      stopping (steps.fullExpandAndSplitWord w) s = (.ok (name :: rest), s') →
        replaceAlias (steps.aliases s') (name :: rest) ≠ [] := by
    intro name rest s' hexpand hreplace
    obtain ⟨rfl, value, halias, hblank⟩ := replaceAlias_eq_nil.1 hreplace
    exact hclear ⟨name, s', value, stopping_eq_ok.1 hexpand, halias, hblank⟩
  constructor
  · refine mirrors_bind fun fields s' hexpand => ?_
    cases fields with
    | nil =>
      simp only [hnil, List.isEmpty_nil, Bool.not_true, Bool.and_false, Bool.false_eq_true,
        if_false]
      refine mirrors_pure ?_
      show _ = (g.give [] none).assembled
      rw [Gathered.give_nil]
      simp [Assembled.append]
    | cons name rest =>
      simp only [hnil, List.isEmpty_nil, List.isEmpty_cons, Bool.not_false, Bool.and_true, if_true]
      exact mirrors_assembleName h hfields (hleft name rest s' hexpand)
  · intro g' s' hgather
    obtain ⟨fields, s₁, hexpand, hread⟩ := bind_eq_ok.1 hgather
    obtain ⟨heading, s₂, hheading, hpure⟩ := bind_eq_ok.1 hread
    cases hheading
    cases hpure
    cases fields with
    | nil =>
      rw [List.map_nil, wordHeading, Gathered.give_nil]
      exact h
    | cons name rest => exact (h.giveWord hfields (hleft name rest _ hexpand)).1

/-- **Step.** Assembling an item keeps to gathering it, unless it is a first word with a blank
alias. -/
theorem mirrors_item (h : g.Headed) (item : CommandPrefixOrSuffixItem N)
    (hclear : ∀ w, item = .word w → g.fields = [] → ¬steps.BlankAlias w s) :
    Mirrors (steps.assembleItem g.assembled item) (steps.gatherItem g item) s ∧
      ∀ g' s', steps.gatherItem g item s = (.ok g', s') → g'.Headed := by
  cases item with
  | ioRedirect redirect =>
    constructor
    · exact mirrors_bind fun _ _ _ => mirrors_pure rfl
    · intro g' s' hgather
      obtain ⟨-, s₁, -, hpure⟩ := bind_eq_ok.1 hgather
      cases hpure
      exact h
  | word w =>
    by_cases hfields : g.fields = []
    · exact mirrors_word h hfields (hclear w rfl hfields)
    · have hne : g.assembled.args ≠ [] := fun hnil => hfields (h.args_eq_nil.1 hnil)
      have hword : steps.assembleItem g.assembled (.word w) = (do
          let nextArgs ← stopping (steps.fullExpandAndSplitWord w)
          pure (g.assembled.append (nextArgs.map .string))) := by
        simp [assembleItem, hne]
      rw [hword]
      exact gatherWord_later h hfields
  | processSubstitution substitution =>
    have hgive : ∀ path : List Char,
        let g' := g.give [.string path] (some pathHeading)
        g'.Headed ∧ g'.assembled = g.assembled.append [.string path] := by
      intro path
      by_cases hfields : g.fields = []
      · have hnone : g.heading = none := h.heading_eq_none.2 hfields
        have hpath : replaceAlias (fun _ => none) [path] = [path] := replaceAlias_none rfl []
        simp [Gathered.Headed, Gathered.args, Gathered.assembled, Gathered.give,
          Assembled.append, hfields, hnone, pathHeading, hpath]
      · exact h.give hfields _ _
    constructor
    · exact mirrors_bind fun fd s' _ => mirrors_pure (hgive (fdPath fd)).2.symm
    · intro g' s' hgather
      obtain ⟨fd, s₁, -, hpure⟩ := bind_eq_ok.1 hgather
      cases hpure
      exact (hgive (fdPath fd)).1
  | assignmentWord assignment w =>
    cases hheading : g.heading with
    | none =>
      have hfields : g.fields = [] := h.heading_eq_none.1 hheading
      have hnil : g.assembled.args = [] := h.args_eq_nil.2 hfields
      simp only [assembleItem, gatherItem, hheading, hnil, List.isEmpty_nil, if_true]
      constructor
      · refine mirrors_pure ?_
        simp [Gathered.assembled, Gathered.args, hheading, hfields]
      · intro g' s' hgather
        cases hgather
        simp [Gathered.Headed, hfields]
    | some heading =>
      have hfields : g.fields ≠ [] := fun hnil => by
        rw [h.heading_eq_none.2 hnil] at hheading
        cases hheading
      have hne : g.assembled.args ≠ [] := fun hnil => hfields (h.args_eq_nil.1 hnil)
      have htakes : g.assembled.commandTakesAssignments = heading.takesAssignments := by
        simp [Gathered.assembled, hheading]
      simp only [assembleItem, gatherItem, hheading, htakes, List.isEmpty_iff, hne, if_false]
      split_ifs with htake
      · constructor
        · exact mirrors_bind fun expanded s' _ =>
            mirrors_pure (h.give hfields [.assignment expanded] none).2.symm
        · intro g' s' hgather
          obtain ⟨expanded, s₁, -, hpure⟩ := bind_eq_ok.1 hgather
          cases hpure
          exact (h.give hfields _ _).1
      · exact gatherWord_later h hfields

/-! ## All items -/

/-- From `g` and `s` on, no first word of the command has a blank alias. -/
def Clear (steps : AssemblySteps N σ ε) (items : List (CommandPrefixOrSuffixItem N))
    (g : Gathered N) (s : σ) : Prop :=
  ∀ before w after g' s', items = before ++ .word w :: after →
    before.foldlM steps.gatherItem g s = (.ok g', s') → g'.fields = [] → ¬steps.BlankAlias w s'

theorem clear_cons {item : CommandPrefixOrSuffixItem N} :
    steps.Clear (item :: items) g s ↔
      (∀ w, item = .word w → g.fields = [] → ¬steps.BlankAlias w s) ∧
        ∀ g' s', steps.gatherItem g item s = (.ok g', s') → steps.Clear items g' s' := by
  constructor
  · intro h
    constructor
    · rintro w rfl hfields
      exact h [] w items g s rfl rfl hfields
    · rintro g' s' hitem before w after g'' s'' rfl hbefore
      refine h (item :: before) w after g'' s'' rfl ?_
      rw [List.foldlM_cons, bind_ok hitem]
      exact hbefore
  · rintro ⟨hfirst, hrest⟩ before w after g'' s'' hitems hbefore hfields
    cases before with
    | nil =>
      cases hbefore
      exact hfirst w (List.cons.inj hitems).1 hfields
    | cons first before =>
      obtain ⟨rfl, rfl⟩ := List.cons.inj hitems
      rw [List.foldlM_cons] at hbefore
      obtain ⟨g', s', hitem, hbefore⟩ := bind_eq_ok.1 hbefore
      exact hrest g' s' hitem before w after g'' s'' rfl hbefore hfields

theorem assembleItem_panics (h : g.Headed) (hfields : g.fields = [])
    (hblank : steps.BlankAlias w s) :
    (steps.assembleItem g.assembled (.word w) s).1 = .error .panic := by
  obtain ⟨name, s', value, hexpand, halias, hvalue⟩ := hblank
  have hnil : g.assembled.args = [] := h.args_eq_nil.2 hfields
  have hword : steps.assembleItem g.assembled (.word w) s =
      steps.assembleName g.assembled [name] s' := by
    refine (bind_ok (stopping_ok hexpand)).trans ?_
    simp [hnil]
  have hreplace : replaceAlias (steps.aliases s') [name] = [] :=
    replaceAlias_eq_nil.2 ⟨rfl, value, halias, hvalue⟩
  rw [hword]
  refine (congrArg Prod.fst
    (read_bind_ok (g := fun s => .ok (steps.aliases s)) rfl)).trans ?_
  simp only [hreplace]
  rfl

/-- **Run.** The arguments that are assembled are those of the fields if and only if no first word
has a blank alias. -/
theorem mirrors_items (h : g.Headed) (items : List (CommandPrefixOrSuffixItem N)) :
    Mirrors (items.foldlM steps.assembleItem g.assembled) (items.foldlM steps.gatherItem g) s ↔
      steps.Clear items g s := by
  induction items generalizing g s with
  | nil =>
    refine iff_of_true (mirrors_pure rfl) fun before w after g' s' hitems => ?_
    cases before <;> cases hitems
  | cons item items ih =>
    rw [clear_cons, List.foldlM_cons, List.foldlM_cons]
    by_cases hfirst : ∀ w, item = .word w → g.fields = [] → ¬steps.BlankAlias w s
    · rw [and_iff_right hfirst]
      obtain ⟨hitem, hheaded⟩ := mirrors_item h item hfirst
      unfold Mirrors at hitem
      cases hgather : steps.gatherItem g item s with
      | mk r s' =>
        rw [hgather] at hitem
        cases r with
        | error e =>
          refine iff_of_true ?_ nofun
          unfold Mirrors
          rw [bind_error hgather, bind_error hitem]
          rfl
        | ok g' =>
          unfold Mirrors at ih ⊢
          rw [bind_ok hgather, bind_ok hitem, ih (hheaded g' s' hgather)]
          constructor
          · intro hclear g'' s'' heq
            cases heq
            exact hclear
          · exact fun hclear => hclear g' s' rfl
    · refine iff_of_false (fun hmirrors => ?_) fun hclear => hfirst hclear.1
      push Not at hfirst
      obtain ⟨w, rfl, hfields, hblank⟩ := hfirst
      have hpanic := assembleItem_panics h hfields hblank
      have hnever := steps.neverPanics_gather (.word w :: items) g s
      rw [List.foldlM_cons] at hnever
      unfold Mirrors at hmirrors
      cases hassemble : steps.assembleItem g.assembled (.word w) s with
      | mk r s' =>
        rw [hassemble] at hpanic
        have hpanics : r = .error .panic := hpanic
        rw [hpanics] at hassemble
        rw [bind_error hassemble] at hmirrors
        have hresult := congrArg Prod.fst hmirrors
        cases hend : ((steps.gatherItem g (.word w) >>= fun g' =>
            items.foldlM steps.gatherItem g') s).1 with
        | error e =>
          rw [hend] at hresult
          cases hresult
          exact hnever hend
        | ok g' =>
          rw [hend] at hresult
          cases hresult

theorem headed_items (h : g.Headed)
    (hclear : steps.Clear items g s) {g' : Gathered N}
    (hgather : items.foldlM steps.gatherItem g s = (.ok g', s')) : g'.Headed := by
  induction items generalizing g s with
  | nil =>
    cases hgather
    exact h
  | cons item items ih =>
    rw [clear_cons] at hclear
    rw [List.foldlM_cons] at hgather
    obtain ⟨g₁, s₁, hitem, hrest⟩ := bind_eq_ok.1 hgather
    have hheaded := (mirrors_item h item hclear.1).2 g₁ s₁ hitem
    exact ih hheaded (hclear.2 g₁ s₁ hitem) hrest

end AssemblySteps

/-! ## The name of the command -/

theorem Gathered.Headed.name {g : Gathered N} (h : g.Headed) (hargs : g.args ≠ []) :
    ∃ name rest, g.args = .string name :: rest := by
  unfold Headed at h
  split at h
  · rename_i hheading
    simp [args, hheading, h] at hargs
  · exact h.2

theorem Assembled.dispatch_string {name : List Char}
    {rest : List (CommandArg N)} (h : a.args = .string name :: rest) :
    a.dispatch = .command name a.assignments a.args := by
  simp [dispatch, h]

theorem Assembled.dispatch_nil (h : a.args = []) :
    a.dispatch = .assignments a.assignments := by
  simp [dispatch, h]

namespace ExecutionSteps

variable {steps : ExecutionSteps N σ ε κ} {s : σ}

theorem neverPanics_executeDispatch (count : Nat) (dispatch : Dispatch N) :
    NeverPanics (steps.executeDispatch count dispatch) := by
  cases dispatch with
  | command name assignments args => exact neverPanics_stopping _
  | assignments assignments =>
    refine NeverPanics.bind ?_ fun _ _ => nofun
    induction assignments with
    | nil => exact neverPanics_pure _
    | cons assignment assignments ih => exact (neverPanics_stopping _).bind fun _ => ih

theorem executeInPipeline_ne_panic (h : (steps.assemble items s).1 ≠ .error .panic) :
    (steps.executeInPipeline items s).1 ≠ .error .panic := by
  have hbody : ((do
      let assembled ← steps.assemble items
      steps.executeDispatch (steps.lastExitStatusChangeCount s) assembled.dispatch :
        Op σ (Stop ε) κ) s).1 ≠ .error .panic := by
    cases hassemble : steps.assemble items s with
    | mk r s' =>
      cases r with
      | error stop =>
        rw [bind_error hassemble]
        rw [hassemble] at h
        simpa using h
      | ok a =>
        rw [bind_ok hassemble]
        exact neverPanics_executeDispatch _ _ s'
  unfold executeInPipeline handle
  rw [read_bind_ok (g := fun s => .ok (steps.lastExitStatusChangeCount s)) rfl]
  split
  · nofun
  · rename_i stop s' hend
    rw [hend] at hbody
    cases stop with
    | redirection => nofun
    | error e => exact hbody
    | panic => exact absurd rfl hbody

end ExecutionSteps

open AssemblySteps in
/-- **Arguments.** The argument list of a command is that of its fields, and nothing panics, if and
only if no word, before which there is no field, is expanded to one field with a blank alias. -/
theorem assembles_iff (steps : ExecutionSteps N σ ε κ)
    (items : List (CommandPrefixOrSuffixItem N)) (s : σ) :
    Assembles steps items s ↔
      ∀ before w after g s', items = before ++ .word w :: after →
        steps.gather before s = (.ok g, s') → g.fields = [] → ¬steps.BlankAlias w s' := by
  have hempty : (Gathered.empty : Gathered N).Headed := rfl
  have hrun : Mirrors (steps.assemble items) (steps.gather items) s ↔
      steps.Clear items Gathered.empty s := mirrors_items hempty items
  refine ⟨fun h => hrun.1 h.arguments, fun hclear => ?_⟩
  have hmirrors : steps.assemble items s =
      ((steps.gather items s).1.map Gathered.assembled, (steps.gather items s).2) :=
    hrun.2 hclear
  have hheaded : ∀ a s', steps.assemble items s = (.ok a, s') →
      ∃ g : Gathered N, g.Headed ∧ a = g.assembled := by
    intro a s' hassemble
    rw [hmirrors] at hassemble
    obtain ⟨hmap, hstate⟩ := Prod.mk.inj hassemble
    obtain ⟨g, hgather, rfl⟩ := except_map_eq_ok.1 hmap
    exact ⟨g, headed_items hempty hclear (Prod.ext hgather rfl), rfl⟩
  constructor
  · refine ExecutionSteps.executeInPipeline_ne_panic ?_
    rw [hmirrors]
    have hnever := steps.neverPanics_gather items Gathered.empty s
    cases hgather : (steps.gather items s).1 with
    | ok g => nofun
    | error stop =>
      intro hpanic
      cases hpanic
      exact hnever hgather
  · exact hmirrors
  · intro a s' hassemble hargs
    obtain ⟨g, hg, rfl⟩ := hheaded a s' hassemble
    obtain ⟨name, rest, hname⟩ := hg.name hargs
    exact ⟨name, rest, hname, Assembled.dispatch_string hname⟩
  · exact fun a s' _ hargs => Assembled.dispatch_nil hargs

/-! ## A blank alias -/

abbrev textNodes : Nodes := ⟨List Char, List Char, List Char, List Char⟩

/-- Words are one field each, and `x` is a blank alias. -/
def blankAliasSteps : ExecutionSteps textNodes Unit Unit Unit where
  fullExpandAndSplitWord w := pure [w]
  expandAssignment a := pure a
  setupRedirect _ := pure ()
  writeError _ := pure ()
  setupProcessSubstitution _ := pure 63
  aliases _ name := if name = ['x'] then some [' '] else none
  builtins _ _ := none
  executeCommand _ _ _ := pure ()
  errorResult _ s := ((), s)
  applyAssignment _ := pure ()
  clearLastArgVariable s := s
  lastExitStatusChangeCount _ := 0
  setLastExitStatusSuccess s := s
  lastResult _ := ()
  generalError := ()

/-- `alias x=' '` and then `x`. -/
theorem not_assembles_blank : ¬Assembles blankAliasSteps [.word ['x']] () :=
  fun h => h.noPanic rfl

end Seahaven.Shell.Assembly
