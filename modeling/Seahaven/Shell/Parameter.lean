import Seahaven.Shell.Declaration
import Seahaven.Shell.Printing
import Seahaven.Shell.Scopes

/-!
# Parameters

A parameter is a positional or special one, a variable, an element of a variable or all its
elements. It expands to one field, or to a field for each element.

1. `ParameterExpr`: the parameters and the forms they are expanded in. `parseParameter` reads one.
2. `ExpandingShell`: what their expansion reads, and `ExpandingShell.ifs`.
3. `ParameterSteps`: the expansion by the steps it takes, up to `expandParameterExpr`.
4. `ParameterWords.steps`: the steps in the shell.
-/

namespace Seahaven.Parser

inductive SpecialParameter
  | allPositionalParameters (concatenate : Bool)
  | positionalParameterCount
  | lastExitStatus
  | currentOptionFlags
  | processId
  | lastBackgroundProcessId
  | shellName
  deriving DecidableEq

inductive Parameter
  | positional (n : Nat)
  | special (s : SpecialParameter)
  | named (name : List Char)
  | namedWithIndex (name index : List Char)
  | namedWithAllIndices (name : List Char) (concatenate : Bool)
  deriving DecidableEq

inductive ParameterTestType
  | unsetOrNull
  | unset
  deriving DecidableEq

/-- The forms of `ParameterExpr` that answer the parameter or a word in its place. -/
inductive ParameterExpr
  | parameter (parameter : Parameter) (indirect : Bool)
  | useDefaultValues (parameter : Parameter) (indirect : Bool) (testType : ParameterTestType)
      (defaultValue : Option (List Char))
  | assignDefaultValues (parameter : Parameter) (indirect : Bool) (testType : ParameterTestType)
      (defaultValue : Option (List Char))
  | indicateErrorIfNullOrUnset (parameter : Parameter) (indirect : Bool)
      (testType : ParameterTestType) (errorMessage : Option (List Char))
  | useAlternativeValue (parameter : Parameter) (indirect : Bool) (testType : ParameterTestType)
      (alternativeValue : Option (List Char))
  deriving DecidableEq

end Seahaven.Parser

namespace Seahaven.Shell

open Seahaven.Parser

/-! ## Values -/

namespace ShellValue

/-- `try_get_cow_str_without_dynamic_support`. -/
def tryGetStrWithoutDynamicSupport : ShellValue → Option (List Char)
  | unset _ => none
  | string s => some s
  | associativeArray values => values[['0']]?
  | indexedArray values => values[0]?
  | dynamic _ => none

/-- `try_get_cow_str`. -/
def tryGetStr (g : Getters) (value : ShellValue) : Option (List Char) :=
  (g.resolve value).tryGetStrWithoutDynamicSupport

/-- `get_at`. -/
def getAtIndex (g : Getters) (value : ShellValue) (index : List Char) :
    Except Fault (Option (List Char)) :=
  match g.resolve value with
  | .unset _ | .dynamic _ => .ok none
  | .string s => .ok (if (parseU64 index).getD 0 = 0 then some s else none)
  | .associativeArray values => .ok values[index]?
  | .indexedArray values => getAt values index

def elementValues (g : Getters) (value : ShellValue) : List (List Char) :=
  match g.resolve value with
  | .unset _ | .dynamic _ => []
  | .string s => [s]
  | .associativeArray values => values.values
  | .indexedArray values => values.values

def isSetAssociative : ShellValue → Bool
  | .associativeArray _ | .unset .associativeArray => true
  | _ => false

end ShellValue

/-! ## The shell -/

/-- What the expansion of parameters reads of a shell. The rest of it, and the world about it, is
left to the words that are expanded. -/
structure ExpandingShell (γ : Type) where
  env : ShellEnvironment
  getters : Getters
  /-- `current_shell_args`. -/
  args : List (List Char)
  shellName : Option (List Char)
  lastExitStatus : Nat
  optionFlags : List Char
  processId : Nat
  /-- The representative process of the current job. -/
  backgroundPid : Option Nat
  treatUnsetVariablesAsError : Bool
  world : γ

variable {γ : Type}

namespace ExpandingShell

variable (sh : ExpandingShell γ)

def envStr (name : List Char) : Option (List Char) :=
  (sh.env.get name).map fun r => (r.2.value.tryGetStr sh.getters).getD []

def ifs : List Char := (sh.envStr ['I', 'F', 'S']).getD [' ', '\t', '\n']

def elementsOf (name : List Char) : List (List Char) :=
  match sh.env.get name with
  | some (_, var) => var.value.elementValues sh.getters
  | none => []

def isSetAssocArray (name : List Char) : Bool :=
  match sh.env.get name with
  | some (_, var) => var.value.isSetAssociative
  | none => false

end ExpandingShell

/-- The errors of expansions. -/
inductive ExpansionError
  | expandingUnsetVariable (parameter : Parameter)
  | badSubstitution (name : List Char)
  | badParameter (s : List Char)
  | checkedExpansionError (message : List Char)
  | cannotAssignToSpecialParameter
  | escape (e : EscapeError)
  | fault (f : Fault)
  | other (what : String)
  deriving DecidableEq

/-! ## Expansions -/

namespace Expansion

def ofText (s : List Char) : Expansion := .ofPiece (.splittable s)

/-- `Expansion::undefined`. -/
def undefinedText : Expansion := { Expansion.ofText [] with undefined := true }

def ofElements (elements : List (List Char)) (concatenate : Bool) : Expansion where
  fields := elements.map fun value => [.splittable value]
  concatenate := concatenate
  fromArray := true

end Expansion

inductive ParameterState
  | undefined
  | definedEmptyString
  | nonZeroLength
  deriving DecidableEq

/-- `Expansion::classify`. -/
def Expansion.classify (e : Expansion) : ParameterState :=
  if e.undefined then .undefined
  else if e.fields.any fun field => field.any fun piece => !piece.asStr.isEmpty then .nonZeroLength
  else if e.fields.isEmpty then .undefined
  else .definedEmptyString

section

variable (sh : ExpandingShell γ)

def expandSpecialParameter : SpecialParameter → Expansion
  | .allPositionalParameters concatenate => .ofElements sh.args concatenate
  | .positionalParameterCount => .ofText (Nat.toDigits 10 sh.args.length)
  | .lastExitStatus => .ofText (Nat.toDigits 10 sh.lastExitStatus)
  | .currentOptionFlags => .ofText sh.optionFlags
  | .processId => .ofText (Nat.toDigits 10 sh.processId)
  | .lastBackgroundProcessId => .ofText ((sh.backgroundPid.map (Nat.toDigits 10)).getD [])
  | .shellName => .ofText (sh.shellName.getD [])

def undefinedExpansion (parameter : Parameter) (allowUnsetVars : Bool) :
    Except ExpansionError Expansion :=
  if allowUnsetVars || !sh.treatUnsetVariablesAsError then .ok .undefinedText
  else .error (.expandingUnsetVariable parameter)

/-- The `Named` case of `expand_parameter_without_indirect`. -/
def expandNamed (name : List Char) (allowUnsetVars : Bool) : Except ExpansionError Expansion :=
  if !validVariableName name then .error (.badSubstitution name)
  else
    match sh.env.get name with
    | some (_, var) =>
      match var.value.tryGetStr sh.getters with
      | some value => .ok (.ofText value)
      | none => undefinedExpansion sh (.named name) allowUnsetVars
    | none => undefinedExpansion sh (.named name) allowUnsetVars

/-- The end of the `NamedWithIndex` case, where the index is known. -/
def expandIndexed (name index key : List Char) (allowUnsetVars : Bool) :
    Except ExpansionError Expansion :=
  match sh.env.get name with
  | some (_, var) =>
    match var.value.getAtIndex sh.getters key with
    | .ok (some value) => .ok (.ofText value)
    | _ => undefinedExpansion sh (.namedWithIndex name index) allowUnsetVars
  | none => undefinedExpansion sh (.namedWithIndex name index) allowUnsetVars

end

/-! ## Parameters in words -/

section

/-- `positional_parameter`: a number that does not fit is none. -/
def positionalParameter : Peg.Rule Char Nat
  | [] => none
  | c :: s =>
    if '1' ≤ c ∧ c ≤ '9' then
      let digits := c :: s.takeWhile Char.isDigit
      match parseDigits digits with
      | some n => if n < 2 ^ 32 then some (n, s.dropWhile Char.isDigit) else none
      | none => none
    else none

def specialParameter : Peg.Rule Char SpecialParameter
  | '@' :: s => some (.allPositionalParameters false, s)
  | '*' :: s => some (.allPositionalParameters true, s)
  | '#' :: s => some (.positionalParameterCount, s)
  | '?' :: s => some (.lastExitStatus, s)
  | '-' :: s => some (.currentOptionFlags, s)
  | '$' :: s => some (.processId, s)
  | '!' :: s => some (.lastBackgroundProcessId, s)
  | '0' :: s => some (.shellName, s)
  | _ => none

def isNameChar (c : Char) : Bool := c == '_' || c.isAlphanum

def variableName : Peg.Rule Char (List Char)
  | [] => none
  | c :: s =>
    if !c.isDigit && isNameChar c then
      some (c :: s.takeWhile isNameChar, s.dropWhile isNameChar)
    else none

/-- The rules for parameters: whether there are the extensions, and the rule for what stands between
brackets. -/
structure ParameterRules where
  nonPosixExtensions : Bool
  /-- `array_index`. -/
  arrayIndex : Peg.Rule Char (List Char)

/-- What may follow a variable's name in `parameter`. -/
def ParameterRules.subscript (r : ParameterRules) (name s : List Char) :
    Option (Parameter × List Char) :=
  if !r.nonPosixExtensions then some (.named name, s)
  else
    match s with
    | '[' :: '@' :: ']' :: rest => some (.namedWithAllIndices name false, rest)
    | '[' :: '*' :: ']' :: rest => some (.namedWithAllIndices name true, rest)
    | '[' :: inner =>
      match r.arrayIndex inner with
      | some (index, ']' :: rest) => some (.namedWithIndex name index, rest)
      | _ => some (.named name, s)
    | _ => some (.named name, s)

def ParameterRules.parameter (r : ParameterRules) : Peg.Rule Char Parameter := fun s =>
  match positionalParameter s with
  | some (n, rest) => some (.positional n, rest)
  | none =>
    match specialParameter s with
    | some (p, rest) => some (.special p, rest)
    | none => (variableName s).bind fun (name, rest) => r.subscript name rest

def ParameterRules.parseParameter (r : ParameterRules) (s : List Char) : Option Parameter :=
  match r.parameter s with
  | some (p, []) => some p
  | _ => none

end

/-! ## The steps of an expansion -/

/-- The steps that the expansion of a parameter takes. -/
structure ParameterSteps (γ : Type) (m : Type → Type) where
  read {α : Type} : (ExpandingShell γ → Except ExpansionError α) → m α
  /-- `basic_expand`. -/
  basicExpand : List Char → m Expansion
  /-- `expand_parameter_word`, between double quotes or not. -/
  expandParameterWord : Bool → List Char → m Expansion
  /-- `arithmetic::expand_and_eval`. -/
  expandAndEval : List Char → m Int
  /-- `update_or_add`, or with an index `update_or_add_array_element`. -/
  assignVariable : List Char → Option (List Char) → List Char → m Unit
  rules : ParameterRules

namespace ParameterSteps

variable {m : Type → Type} [Monad m] (x : ParameterSteps γ m)

/-- `fields_to_string`, with the `IFS` there is. -/
def toStr (e : Expansion) : m (List Char) := x.read fun sh => .ok (fieldsToString sh.ifs e)

def basicExpandToStr (word : List Char) : m (List Char) := do
  let e ← x.basicExpand word
  x.toStr e

def expandArrayIndex (index : List Char) (forSetAssociativeArray : Bool) : m (List Char) :=
  if forSetAssociativeArray then x.basicExpandToStr index
  else do
    let n ← x.expandAndEval index
    pure (i64ToString n)

def indexOf (name index : List Char) : m (List Char) := do
  let isSet ← x.read fun sh => .ok (sh.isSetAssocArray name)
  x.expandArrayIndex index isSet

def expandParameterWithoutIndirect (parameter : Parameter) (allowUnsetVars : Bool) : m Expansion :=
  match parameter with
  | .positional 0 => x.read fun sh => .ok (expandSpecialParameter sh .shellName)
  | .positional (n + 1) => x.read fun sh =>
    match sh.args[n]? with
    | some value => .ok (.ofText value)
    | none => undefinedExpansion sh parameter allowUnsetVars
  | .special s => x.read fun sh => .ok (expandSpecialParameter sh s)
  | .named name => x.read fun sh => expandNamed sh name allowUnsetVars
  | .namedWithIndex name index => do
    let key ← x.indexOf name index
    x.read fun sh => expandIndexed sh name index key allowUnsetVars
  | .namedWithAllIndices name concatenate => x.read fun sh =>
    .ok (.ofElements (sh.elementsOf name) concatenate)

/-- The parameter that an indirect one refers to, by its expansion. -/
def referred (e : Expansion) : m Parameter :=
  x.read fun sh =>
    let parameterStr := fieldsToString sh.ifs e
    match x.rules.parseParameter parameterStr with
    | none => .error (.badParameter parameterStr)
    | some parameter => .ok parameter

def expandParameterInternal (parameter : Parameter) (indirect allowUnsetVars : Bool) :
    m Expansion := do
  let expansion ← x.expandParameterWithoutIndirect parameter allowUnsetVars
  if !indirect then pure expansion
  else do
    let inner ← x.referred expansion
    x.expandParameterWithoutIndirect inner allowUnsetVars

def expandParameter (parameter : Parameter) (indirect : Bool) : m Expansion :=
  x.expandParameterInternal parameter indirect false

def expandParameterAllowingUnset (parameter : Parameter) (indirect : Bool) : m Expansion :=
  x.expandParameterInternal parameter indirect true

def assignToParameter (parameter : Parameter) (value : List Char) : m Unit :=
  match parameter with
  | .named name => x.assignVariable name none value
  | .namedWithIndex name index => do
    let key ← x.indexOf name index
    x.assignVariable name (some key) value
  | .positional _ | .special _ | .namedWithAllIndices _ _ =>
    x.read fun _ => .error .cannotAssignToSpecialParameter

def stands : ParameterTestType → ParameterState → Bool
  | _, .nonZeroLength => true
  | .unset, .definedEmptyString => true
  | _, _ => false

/-- `expand_parameter_expr`, between double quotes or not. -/
def expandParameterExpr (inDoubleQuotes : Bool) : ParameterExpr → m Expansion
  | .parameter parameter indirect => x.expandParameter parameter indirect
  | .useDefaultValues parameter indirect testType defaultValue => do
    let expanded ← x.expandParameterAllowingUnset parameter indirect
    if stands testType expanded.classify then pure expanded
    else x.expandParameterWord inDoubleQuotes (defaultValue.getD [])
  | .assignDefaultValues parameter indirect testType defaultValue => do
    let expanded ← x.expandParameterAllowingUnset parameter indirect
    if stands testType expanded.classify then pure expanded
    else do
      let expandedDefault ← x.expandParameterWord inDoubleQuotes (defaultValue.getD [])
      let value ← x.toStr expandedDefault
      x.assignToParameter parameter value
      pure (.ofText value)
  | .indicateErrorIfNullOrUnset parameter indirect testType errorMessage => do
    let expanded ← x.expandParameterAllowingUnset parameter indirect
    if stands testType expanded.classify then pure expanded
    else do
      let message ← x.basicExpandToStr (errorMessage.getD [])
      x.read fun _ => .error (.checkedExpansionError message)
  | .useAlternativeValue parameter indirect testType alternativeValue => do
    let expanded ← x.expandParameterAllowingUnset parameter indirect
    if stands testType expanded.classify then
      x.expandParameterWord inDoubleQuotes (alternativeValue.getD [])
    else pure (.ofText [])

end ParameterSteps

/-! ## The shell that takes them -/

/-- What is given of the expansion of words and of arithmetic. It may change the shell. -/
structure ParameterWords (γ : Type) where
  /-- `basic_expand`. -/
  basicExpand : List Char → Op (ExpandingShell γ) ExpansionError Expansion
  /-- `expand_parameter_word`, between double quotes or not. -/
  expandParameterWord : Bool → List Char → Op (ExpandingShell γ) ExpansionError Expansion
  /-- `arithmetic::expand_and_eval`. -/
  expandAndEval : List Char → Op (ExpandingShell γ) ExpansionError Int
  rules : ParameterRules

/-- `update_or_add`, or with an index `update_or_add_array_element`, in the whole environment. -/
def assignVariable [Casing] (name : List Char) (index : Option (List Char)) (value : List Char) :
    Op (ExpandingShell γ) ExpansionError Unit := fun sh =>
  match (match index with
    | none => sh.env.updateOrAdd name (.scalar value) Updater.skip .anywhere .global
    | some index =>
      sh.env.updateOrAddArrayElement name index value Updater.skip .anywhere .global) with
  | (.ok _, env) => (.ok (), { sh with env })
  | (.error f, env) => (.error (.fault f), { sh with env })

/-- The steps as the shell takes them. -/
def ParameterWords.steps [Casing] (x : ParameterWords γ) :
    ParameterSteps γ (Op (ExpandingShell γ) ExpansionError) where
  read f := Op.read f
  basicExpand := x.basicExpand
  expandParameterWord := x.expandParameterWord
  expandAndEval := x.expandAndEval
  assignVariable := assignVariable
  rules := x.rules

theorem expandParameterInternal_direct [Casing] (x : ParameterWords γ) (parameter : Parameter)
    (allowUnsetVars : Bool) :
    x.steps.expandParameterInternal parameter false allowUnsetVars =
      x.steps.expandParameterWithoutIndirect parameter allowUnsetVars := by
  funext sh
  cases h : x.steps.expandParameterWithoutIndirect parameter allowUnsetVars sh with
  | mk r sh' =>
    cases r with
    | error e => exact Op.bind_error h
    | ok e => exact Op.bind_ok h

/-! ## Pieces of words -/

/-- What the expansion of the other pieces of a word asks for. -/
structure PieceWords (γ A : Type) where
  expandTildeExpression : TildeExpr → Op (ExpandingShell γ) ExpansionError (List Char)
  commandOutput : List Char → Op (ExpandingShell γ) ExpansionError (List Char)
  expandArithmeticExpr : A → Op (ExpandingShell γ) ExpansionError (List Char)
  expandPathnamesInField : WordField → Op (ExpandingShell γ) ExpansionError (List (List Char))

/-- The expansion of words in a shell. -/
abbrev shellExpander [Casing] {A : Type} (x : ParameterWords γ) (w : PieceWords γ A) :
    Expander ParameterExpr A where
  State := ExpandingShell γ
  Error := ExpansionError
  ifs := ExpandingShell.ifs
  expandParameterExpr := x.steps.expandParameterExpr
  expandTildeExpression := w.expandTildeExpression
  commandOutput := w.commandOutput
  expandArithmeticExpr := w.expandArithmeticExpr
  escapeError := .escape
  expandPathnamesInField := w.expandPathnamesInField

end Seahaven.Shell
