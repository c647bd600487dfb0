import Mathlib.Logic.Function.Basic
import Seahaven.Shell.Variables

/-!
# Shell environments

An environment is a stack of scopes, each a map from names to variables. An operation looks a name
up under a policy, from the top of the stack down, and works on the variable it finds; one that
finds none may create the variable in the topmost scope of a given type.

1. `ShellEnvironment.find`: the loop of the lookups, with the count of local scopes it passes.
2. `add`, `updateOrAdd`, `updateOrAddArrayElement`, `unset`, `unsetIndex`.
3. `VarOp`, `EnvOp`: the operations as data, and what a sequence of them does.
-/

namespace Seahaven.Shell

/-- The policy of a lookup (`EnvironmentLookup`). -/
inductive EnvironmentLookup
  | anywhere
  | onlyInGlobal
  | onlyInCurrentLocal
  | onlyInLocal
  deriving DecidableEq

/-- The type of a scope (`EnvironmentScope`). -/
inductive EnvironmentScope
  | loc
  | global
  | command
  deriving DecidableEq

abbrev ShellVariableMap := List Char → Option ShellVariable

/-- `ShellEnvironment`. The scopes are listed from the top of the stack down. -/
structure ShellEnvironment where
  scopes : List (EnvironmentScope × ShellVariableMap)
  exportVariablesOnModification : Bool
  entryCount : Nat

/-- What a caller does to a variable after its update: it sets attributes other than the value and
the read-only one, and may fail. -/
structure Updater where
  run : ShellVariable → Attempt ShellVariable Unit
  value_run : ∀ v, (run v).2.value = v.value
  readonly_run : ∀ v, (run v).2.readonly = v.readonly

namespace Updater

/-- `|_| Ok(())`. -/
def skip : Updater where
  run v := (.ok (), v)
  value_run _ := rfl
  readonly_run _ := rfl

/-- `|v| { v.export(); Ok(()) }`. -/
def «export» : Updater where
  run v := (.ok (), v.export)
  value_run _ := rfl
  readonly_run _ := rfl

end Updater

namespace ShellEnvironment

/-! ## Lookup -/

/-- Whether a policy looks into a scope, the `localCount`th local one from the top if it is
local. -/
def admits (lookup : EnvironmentLookup) (scope : EnvironmentScope) (localCount : Nat) : Bool :=
  match lookup with
  | .anywhere => true
  | .onlyInGlobal => scope = .global
  | .onlyInCurrentLocal => scope = .loc ∧ localCount = 1
  | .onlyInLocal => scope = .loc

def countLocal (scope : EnvironmentScope) (localCount : Nat) : Nat :=
  if scope = .loc then localCount + 1 else localCount

/-- The loop of `get_mut_using_policy`: the position of the scope that has the variable, and the
variable. -/
def findIn (lookup : EnvironmentLookup) (name : List Char) :
    Nat → List (EnvironmentScope × ShellVariableMap) → Option (Nat × ShellVariable)
  | _, [] => none
  | localCount, (scope, map) :: scopes =>
    let localCount := countLocal scope localCount
    let deeper := (findIn lookup name localCount scopes).map fun r => (r.1 + 1, r.2)
    if admits lookup scope localCount then
      match map name with
      | some v => some (0, v)
      | none => if scope = .loc ∧ lookup = .onlyInCurrentLocal then none else deeper
    else deeper

/-- `get_mut_using_policy`; with `anywhere` it is `get_mut`. -/
def find (env : ShellEnvironment) (lookup : EnvironmentLookup) (name : List Char) :
    Option (Nat × ShellVariable) :=
  findIn lookup name 0 env.scopes

def varAt (env : ShellEnvironment) (i : Nat) (name : List Char) : Option ShellVariable :=
  env.scopes[i]?.bind fun s => s.2 name

def setAt (env : ShellEnvironment) (i : Nat) (name : List Char) (v : Option ShellVariable) :
    ShellEnvironment :=
  { env with scopes := env.scopes.modify i fun s => (s.1, Function.update s.2 name v) }

/-! ## Operations -/

def add (env : ShellEnvironment) (name : List Char) (v : ShellVariable)
    (target : EnvironmentScope) : Attempt ShellEnvironment Unit :=
  let v := if env.exportVariablesOnModification then v.export else v
  match env.scopes.findIdx? fun s => s.1 = target with
  | none => (.error (.error .missingScopeForNewVariable), env)
  | some i =>
    let count := if (env.varAt i name).isNone then env.entryCount + 1 else env.entryCount
    (.ok (), { env.setAt i name (some v) with entryCount := count })

def addNew (env : ShellEnvironment) (name : List Char) (target : EnvironmentScope)
    (r : Attempt ShellVariable Unit) : Attempt ShellEnvironment Unit :=
  match r with
  | (.error e, _) => (.error e, env)
  | (.ok _, v) => env.add name v target

def applyAt {α : Type} (env : ShellEnvironment) (i : Nat) (name : List Char)
    (r : Attempt ShellVariable α) : Attempt ShellEnvironment α :=
  (r.1, env.setAt i name (some r.2))

def fresh : ShellVariable := ShellVariable.new (.unset .untyped)

variable [Casing]

/-- What `update_or_add` does to the variable: `assign`, `export` if the environment exports what
it modifies, then the updater. -/
def update (env : ShellEnvironment) (value : ShellValueLiteral) (updater : Updater)
    (v : ShellVariable) : Attempt ShellVariable Unit :=
  match v.assign value false with
  | (.error e, v) => (.error e, v)
  | (.ok _, v) => updater.run (if env.exportVariablesOnModification then v.export else v)

def updateOrAdd (env : ShellEnvironment) (name : List Char) (value : ShellValueLiteral)
    (updater : Updater) (lookup : EnvironmentLookup) (scopeIfCreating : EnvironmentScope) :
    Attempt ShellEnvironment Unit :=
  match env.find lookup name with
  | some (i, v) => env.applyAt i name (env.update value updater v)
  | none =>
    env.addNew name scopeIfCreating (env.update value updater fresh)

omit [Casing] in
def thenUpdate (r : Attempt ShellVariable Unit) (updater : Updater) : Attempt ShellVariable Unit :=
  match r with
  | (.error e, v) => (.error e, v)
  | (.ok _, v) => updater.run v

def updateOrAddArrayElement (env : ShellEnvironment) (name index value : List Char)
    (updater : Updater) (lookup : EnvironmentLookup) (scopeIfCreating : EnvironmentScope) :
    Attempt ShellEnvironment Unit :=
  match env.find lookup name with
  | some (i, v) => env.applyAt i name (thenUpdate (v.assignAtIndex index value false) updater)
  | none =>
    env.addNew name scopeIfCreating
      (thenUpdate (fresh.assign (.array [(some index, value)]) false) updater)

omit [Casing] in
/-- `unset`: the variable that was removed. One found in the topmost local scope leaves a
placeholder. -/
def unset (env : ShellEnvironment) (name : List Char) :
    Attempt ShellEnvironment (Option ShellVariable) :=
  match env.find .anywhere name with
  | none => (.ok none, env)
  | some (i, v) =>
    if v.readonly then (.error (.error .readonlyVariable), env)
    else
      let inLocal := env.scopes[i]?.any fun s => s.1 = .loc
      let localCount := (env.scopes.take (i + 1)).countP fun s => s.1 = .loc
      if inLocal ∧ localCount = 1 then (.ok (some v), env.setAt i name (some fresh))
      else (.ok (some v), { env.setAt i name none with entryCount := env.entryCount - 1 })

omit [Casing] in
def unsetIndex (env : ShellEnvironment) (name index : List Char) :
    Attempt ShellEnvironment Bool :=
  match env.find .anywhere name with
  | some (i, v) => env.applyAt i name (v.unsetIndex index)
  | none => (.ok false, env)

end ShellEnvironment

/-! ## Sequences of operations -/

/-- An operation of a variable. -/
inductive VarOp
  | assign (value : ShellValueLiteral) (append : Bool)
  | assignAtIndex (index value : List Char) (append : Bool)
  | unsetIndex (index : List Char)
  | convertToIndexedArray
  | convertToAssociativeArray

/-- An operation of an environment, or one of a variable that a lookup returns. -/
inductive EnvOp
  | updateOrAdd (name : List Char) (value : ShellValueLiteral) (updater : Updater)
      (lookup : EnvironmentLookup) (scopeIfCreating : EnvironmentScope)
  | updateOrAddArrayElement (name index value : List Char) (updater : Updater)
      (lookup : EnvironmentLookup) (scopeIfCreating : EnvironmentScope)
  | unset (name : List Char)
  | unsetIndex (name index : List Char)
  | onVariable (name : List Char) (lookup : EnvironmentLookup) (op : VarOp)

def Attempt.drop {σ α : Type} (r : Attempt σ α) : Attempt σ Unit := (r.1.map fun _ => (), r.2)

variable [Casing]

/-- The operation, applied to a variable. -/
def VarOp.run : VarOp → ShellVariable → Attempt ShellVariable Unit
  | assign value append, v => v.assign value append
  | assignAtIndex index value append, v => v.assignAtIndex index value append
  | unsetIndex index, v => Attempt.drop (v.unsetIndex index)
  | convertToIndexedArray, v => v.convertToIndexedArray
  | convertToAssociativeArray, v => v.convertToAssociativeArray

/-- The operation, applied to an environment. -/
def EnvOp.run : EnvOp → ShellEnvironment → Attempt ShellEnvironment Unit
  | updateOrAdd name value updater lookup scope, env =>
    env.updateOrAdd name value updater lookup scope
  | updateOrAddArrayElement name index value updater lookup scope, env =>
    env.updateOrAddArrayElement name index value updater lookup scope
  | unset name, env => Attempt.drop (env.unset name)
  | unsetIndex name index, env => Attempt.drop (env.unsetIndex name index)
  | onVariable name lookup op, env =>
    match env.find lookup name with
    | some (i, v) => env.applyAt i name (op.run v)
    | none => (.ok (), env)

/-- The environment after a sequence of operations, each run whether or not those before it
failed. -/
def runAll (env : ShellEnvironment) (ops : List EnvOp) : ShellEnvironment :=
  ops.foldl (fun env op => (op.run env).2) env

end Seahaven.Shell
