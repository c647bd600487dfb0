import Seahaven.Shell.Readonly

/-!
# The scope stack

Scopes are pushed and popped around calls. Which variable a name stands for is decided by four
scans of the stack: `get`, `get_mut`, `get_using_policy` and the iterators, of which
`iter_exported` leaves out the variables that are not exported before it looks which are hidden.

1. The scans, each as its loop has it.
2. `StackOp`: the operations of a stack of scopes as data, and what a sequence of them does.
3. `get_eq`, `getMut_eq`, `getUsingPolicy_eq`, `iter_eq`, `iterExported_eq`: the scans in terms of
   the entries of a name.
-/

namespace Seahaven.Shell

/-- The errors of `pop_scope`. -/
inductive ScopeError
  | unexpectedScopeType (expected actual : EnvironmentScope)
  | missingScope
  deriving DecidableEq

namespace ShellEnvironment

/-- `ShellEnvironment::new`. -/
def new : ShellEnvironment where
  scopes := [(.global, fun _ => none)]
  exportVariablesOnModification := false
  entryCount := 0

def pushScope (env : ShellEnvironment) (scopeType : EnvironmentScope) : ShellEnvironment :=
  { env with scopes := (scopeType, fun _ => none) :: env.scopes }

/-- `pop_scope`: the scope is gone also when it is not of the type expected. -/
def popScope (env : ShellEnvironment) (expected : EnvironmentScope) :
    Except ScopeError Unit × ShellEnvironment :=
  match env.scopes with
  | [] => (.error .missingScope, env)
  | (actual, _) :: scopes =>
    (if actual = expected then .ok () else .error (.unexpectedScopeType expected actual),
      { env with scopes })

/-! ## The scans -/

/-- The loop of `get`. -/
def getIn (name : List Char) :
    List (EnvironmentScope × ShellVariableMap) → Option (EnvironmentScope × ShellVariable)
  | [] => none
  | (scopeType, map) :: scopes =>
    match map name with
    | some var => some (scopeType, var)
    | none => getIn name scopes

def get (env : ShellEnvironment) (name : List Char) : Option (EnvironmentScope × ShellVariable) :=
  getIn name env.scopes

/-- The loop of `get_mut`: the position of the scope with the variable, its type and the
variable. -/
def getMutIn (name : List Char) : List (EnvironmentScope × ShellVariableMap) →
    Option (Nat × EnvironmentScope × ShellVariable)
  | [] => none
  | (scopeType, map) :: scopes =>
    match map name with
    | some var => some (0, scopeType, var)
    | none => (getMutIn name scopes).map fun r => (r.1 + 1, r.2)

def getMut (env : ShellEnvironment) (name : List Char) :
    Option (Nat × EnvironmentScope × ShellVariable) := getMutIn name env.scopes

/-- The loop of `get_using_policy`. -/
def getUsingPolicyIn (lookup : EnvironmentLookup) (name : List Char) :
    Nat → List (EnvironmentScope × ShellVariableMap) → Option ShellVariable
  | _, [] => none
  | localCount, (scopeType, map) :: scopes =>
    let localCount := countLocal scopeType localCount
    if admits lookup scopeType localCount then
      match map name with
      | some var => some var
      | none =>
        if scopeType = .loc ∧ lookup = .onlyInCurrentLocal then none
        else getUsingPolicyIn lookup name localCount scopes
    else getUsingPolicyIn lookup name localCount scopes

def getUsingPolicy (env : ShellEnvironment) (name : List Char) (lookup : EnvironmentLookup) :
    Option ShellVariable := getUsingPolicyIn lookup name 0 env.scopes

def insertVacant (visibleVars map : ShellVariableMap) : ShellVariableMap :=
  fun name => (visibleVars name).or (map name)

/-- The loop of `iter_using_policy`. -/
def iterIn (lookup : EnvironmentLookup) : Nat → List (EnvironmentScope × ShellVariableMap) →
    ShellVariableMap → ShellVariableMap
  | _, [], visibleVars => visibleVars
  | localCount, (scopeType, map) :: scopes, visibleVars =>
    let localCount := countLocal scopeType localCount
    if admits lookup scopeType localCount then
      let visibleVars := insertVacant visibleVars map
      if scopeType = .loc ∧ lookup = .onlyInCurrentLocal then visibleVars
      else iterIn lookup localCount scopes visibleVars
    else iterIn lookup localCount scopes visibleVars

/-- `iter_using_policy`: the variables it yields, by name. -/
def iterUsingPolicy (env : ShellEnvironment) (lookup : EnvironmentLookup) : ShellVariableMap :=
  iterIn lookup 0 env.scopes fun _ => none

def iter (env : ShellEnvironment) : ShellVariableMap := env.iterUsingPolicy .anywhere

/-- The loop of `iter_exported`. -/
def iterExportedIn : List (EnvironmentScope × ShellVariableMap) → ShellVariableMap →
    ShellVariableMap
  | [], visibleVars => visibleVars
  | (_, map) :: scopes, visibleVars =>
    iterExportedIn scopes
      (insertVacant visibleVars fun name => (map name).filter (·.exported))

/-- `iter_exported`: the variables it yields, by name. -/
def iterExported (env : ShellEnvironment) : ShellVariableMap :=
  iterExportedIn env.scopes fun _ => none

/-- The capacity that `iter` and `iter_exported` reserve. -/
def iterCapacity (env : ShellEnvironment) : Nat := env.entryCount

end ShellEnvironment

/-! ## Sequences of operations -/

/-- An operation of a stack of scopes. -/
inductive StackOp
  | pushScope (scopeType : EnvironmentScope)
  | popScope (expected : EnvironmentScope)
  | add (name : List Char) (var : ShellVariable) (target : EnvironmentScope)
  | setExported (name : List Char) (lookup : EnvironmentLookup) (exported : Bool)
  | edit (op : EnvOp)

section

variable [Casing]

/-- The environment that an operation leaves. -/
def StackOp.run : StackOp → ShellEnvironment → ShellEnvironment
  | pushScope scopeType, env => env.pushScope scopeType
  | popScope expected, env => (env.popScope expected).2
  | add name var target, env => (env.add name var target).2
  | setExported name lookup exported, env =>
    match env.find lookup name with
    | some (i, v) => env.setAt i name (some { v with exported })
    | none => env
  | edit op, env => (op.run env).2

def runStack (env : ShellEnvironment) (ops : List StackOp) : ShellEnvironment :=
  ops.foldl (fun env op => op.run env) env

theorem runStack_append (env : ShellEnvironment) (ops : List StackOp) (op : StackOp) :
    runStack env (ops ++ [op]) = op.run (runStack env ops) := by
  unfold runStack
  rw [List.foldl_append]
  rfl

end

/-! ## The entries of a name -/

namespace ShellEnvironment

def entriesIn (name : List Char) (scopes : List (EnvironmentScope × ShellVariableMap)) :
    List ShellVariable := scopes.filterMap fun s => s.2 name

def entries (env : ShellEnvironment) (name : List Char) : List ShellVariable :=
  entriesIn name env.scopes

theorem entriesIn_cons (name : List Char) (s : EnvironmentScope × ShellVariableMap)
    (scopes : List (EnvironmentScope × ShellVariableMap)) :
    entriesIn name (s :: scopes) = (s.2 name).toList ++ entriesIn name scopes := by
  unfold entriesIn
  rw [List.filterMap_cons]
  cases s.2 name with
  | none => rfl
  | some v => rfl

theorem get_eq (env : ShellEnvironment) (name : List Char) :
    (env.get name).map Prod.snd = (env.entries name).head? := by
  unfold get entries
  induction env.scopes with
  | nil => rfl
  | cons s scopes ih =>
    rw [entriesIn_cons, getIn]
    cases s.2 name with
    | none => exact ih
    | some v => rfl

theorem getMut_eq (env : ShellEnvironment) (name : List Char) :
    (env.getMut name).map Prod.snd = env.get name := by
  unfold getMut get
  induction env.scopes with
  | nil => rfl
  | cons s scopes ih =>
    rw [getMutIn, getIn]
    cases s.2 name with
    | none =>
      dsimp only
      rw [← ih, Option.map_map]
      rfl
    | some v => rfl

theorem admits_anywhere (scopeType : EnvironmentScope) (count : Nat) :
    admits .anywhere scopeType count = true := rfl

theorem getUsingPolicy_eq (env : ShellEnvironment) (name : List Char) :
    env.getUsingPolicy name .anywhere = (env.entries name).head? := by
  suffices H : ∀ scopes count, getUsingPolicyIn .anywhere name count scopes =
      (entriesIn name scopes).head? from H env.scopes 0
  intro scopes
  induction scopes with
  | nil => exact fun _ => rfl
  | cons s scopes ih =>
    intro count
    rw [entriesIn_cons, getUsingPolicyIn]
    rw [if_pos (admits_anywhere _ _)]
    cases s.2 name with
    | none =>
      dsimp only
      rw [if_neg (fun h => nomatch h.2)]
      exact ih _
    | some v => rfl

theorem iter_eq (env : ShellEnvironment) (name : List Char) :
    env.iter name = (env.entries name).head? := by
  suffices H : ∀ scopes count (visible : ShellVariableMap),
      iterIn .anywhere count scopes visible name =
        (visible name).or (entriesIn name scopes).head? from H env.scopes 0 _
  intro scopes
  induction scopes with
  | nil => exact fun _ visible => (Option.or_none).symm
  | cons s scopes ih =>
    intro count visible
    rw [iterIn]
    dsimp only
    rw [if_pos (admits_anywhere _ _), if_neg (fun h => nomatch h.2), ih, insertVacant,
      Option.or_assoc, entriesIn_cons]
    cases s.2 name with
    | none => rfl
    | some v => rfl

theorem iterExported_eq (env : ShellEnvironment) (name : List Char) :
    env.iterExported name = (env.entries name).find? (·.exported) := by
  suffices H : ∀ scopes (visible : ShellVariableMap),
      iterExportedIn scopes visible name =
        (visible name).or ((entriesIn name scopes).find? (·.exported)) from H env.scopes _
  intro scopes
  induction scopes with
  | nil => exact fun visible => (Option.or_none).symm
  | cons s scopes ih =>
    intro visible
    rw [iterExportedIn, ih, insertVacant, Option.or_assoc, entriesIn_cons]
    cases s.2 name with
    | none => rfl
    | some v =>
      have hfilter : (some v).filter (·.exported) = if v.exported then some v else none := rfl
      have hfind : ((some v).toList ++ entriesIn name scopes).find? (·.exported) =
          ((some v).filter (·.exported)).or ((entriesIn name scopes).find? (·.exported)) := by
        rw [hfilter, Option.toList_some, List.singleton_append, List.find?_cons]
        cases v.exported with
        | false => rfl
        | true => rfl
      rw [hfind]

end ShellEnvironment

end Seahaven.Shell
