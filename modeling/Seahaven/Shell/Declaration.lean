import Seahaven.Shell.Temporary

/-!
# Declarations

`declare`, `local`, `readonly` and `export` take assignments as arguments and make them on their own
path. A declaration converts the variable, changes its attributes, assigns and then locks or unlocks
it, each on the variable itself, so a step that fails leaves what the steps before it have done.

1. `processDeclaration` is `declare.rs`, `processDecl` is `export.rs`, both without what they print.
2. `DeclareCommand.fails_iff`: when a declaration of a variable reports an error.
3. `DeclarationCommand.keeps_iff`: when the declarations leave a variable alone for which they
   report an error.
-/

namespace Seahaven.Shell

open Std

/-! ## The options -/

/-- An option that is given with `-` or with `+`. -/
structure MinusOrPlusFlag where
  enable : Bool
  disable : Bool

namespace MinusOrPlusFlag

def isSome (f : MinusOrPlusFlag) : Bool := f.enable || f.disable

/-- `to_bool`: an option given both ways says nothing. -/
def toBool (f : MinusOrPlusFlag) : Option Bool :=
  match f.enable, f.disable with
  | true, false => some true
  | false, true => some false
  | _, _ => none

def absent : MinusOrPlusFlag := ⟨false, false⟩

end MinusOrPlusFlag

/-- The options of `declare`. -/
structure DeclareOptions where
  functionNamesOrDefsOnly : Bool
  functionNamesOnly : Bool
  createGlobal : Bool
  makeIndexedArray : MinusOrPlusFlag
  makeAssociativeArray : MinusOrPlusFlag
  capitalizeValueOnAssignment : MinusOrPlusFlag
  makeInteger : MinusOrPlusFlag
  lowercaseValueOnAssignment : MinusOrPlusFlag
  makeNameref : MinusOrPlusFlag
  makeReadonly : MinusOrPlusFlag
  makeTraced : MinusOrPlusFlag
  uppercaseValueOnAssignment : MinusOrPlusFlag
  makeExported : MinusOrPlusFlag

inductive DeclareVerb
  | declare
  | loc
  | readonly
  deriving DecidableEq

/-- An assignment among the arguments of a command, its words expanded but its subscript not
evaluated. -/
structure DeclaredAssignment where
  name : List Char
  index : Option (List Char)
  value : ShellValueLiteral
  append : Bool

/-- `CommandArg`. -/
inductive DeclaredArg
  | string (s : List Char)
  | assignment (a : DeclaredAssignment)

def validVariableName : List Char → Bool
  | [] => false
  | c :: cs => (c.isAlpha || c == '_') && cs.all fun c => c.isAlphanum || c == '_'

/-! ## The names of declarations -/

/-- `^(.*?)\[(.*?)\]$`: the texts before the first bracket and between the brackets. -/
def arrayAndIndex (s : List Char) : Option (List Char × List Char) :=
  let name := s.takeWhile (· ≠ '[')
  match s.dropWhile (· ≠ '[') with
  | [] => none
  | _ :: rest =>
    if rest.getLast? = some ']' ∧ '\n' ∉ s then some (name, rest.dropLast) else none

/-- What `declaration_to_name_and_value` returns. -/
structure NameAndValue where
  name : List Char
  assignedIndex : Option (List Char)
  initialValue : Option ShellValueLiteral
  nameIsArray : Bool

def declarationToNameAndValue : DeclaredArg → Except Fault NameAndValue
  | .string s =>
    match arrayAndIndex s with
    | some (name, index) => .ok ⟨name, some index, none, true⟩
    | none => .ok ⟨s, none, none, false⟩
  | .assignment a =>
    match a.index, a.value with
    | some _, .array _ => .error (.error (.other "cannot assign list to array member"))
    | some index, .scalar s => .ok ⟨a.name, some index, some (.array [(some index, s)]), true⟩
    | none, .scalar s => .ok ⟨a.name, none, some (.scalar s), false⟩
    | none, .array literals => .ok ⟨a.name, none, some (.array literals), true⟩

/-! ## Attributes -/

namespace ShellVariable

/-- A transform that is set by an option, or taken back. -/
def setTransform (v : ShellVariable) (flag : MinusOrPlusFlag)
    (transform : ShellVariableUpdateTransform) : ShellVariable :=
  match flag.toBool with
  | some true => { v with transformOnUpdate := transform }
  | some false =>
    if v.transformOnUpdate = transform then { v with transformOnUpdate := .none } else v
  | none => v

def unsetReadonly (v : ShellVariable) : Attempt ShellVariable Unit :=
  if v.readonly then (.error (.error .readonlyVariable), v)
  else (.ok (), { v with readonly := false })

end ShellVariable

namespace DeclareOptions

variable (o : DeclareOptions)

def applyAttributesBeforeUpdate (v : ShellVariable) : ShellVariable :=
  let v := { v with treatAsInteger := o.makeInteger.toBool.getD v.treatAsInteger }
  let v := v.setTransform o.capitalizeValueOnAssignment .capitalize
  let v := v.setTransform o.lowercaseValueOnAssignment .lowercase
  let v := { v with treatAsNameref := o.makeNameref.toBool.getD v.treatAsNameref }
  let v := { v with trace := o.makeTraced.toBool.getD v.trace }
  let v := v.setTransform o.uppercaseValueOnAssignment .uppercase
  { v with exported := o.makeExported.toBool.getD v.exported }

def applyAttributesAfterUpdate (verb : DeclareVerb) (v : ShellVariable) :
    Attempt ShellVariable Unit :=
  if verb = .readonly then (.ok (), v.setReadonly)
  else
    match o.makeReadonly.toBool with
    | some true => (.ok (), v.setReadonly)
    | some false => v.unsetReadonly
    | none => (.ok (), v)

/-- `convert_to_associative_array` with `-A`, then `convert_to_indexed_array` with `-a`. -/
def convert (v : ShellVariable) : Attempt ShellVariable Unit :=
  match if o.makeAssociativeArray.isSome then v.convertToAssociativeArray else (.ok (), v) with
  | (.error fault, v) => (.error fault, v)
  | (.ok _, v) => if o.makeIndexedArray.isSome then v.convertToIndexedArray else (.ok (), v)

def unsetType (nameIsArray : Bool) : ShellValueUnsetType :=
  if o.makeIndexedArray.isSome then .indexedArray
  else if o.makeAssociativeArray.isSome then .associativeArray
  else if nameIsArray then .indexedArray
  else .untyped

end DeclareOptions

/-! ## Declarations -/

namespace ShellValue

def isArray : ShellValue → Bool
  | .indexedArray _ | .associativeArray _ | .unset .indexedArray | .unset .associativeArray => true
  | _ => false

end ShellValue

section

variable [Casing]

def assignInitial (initialValue : Option ShellValueLiteral) (append : Bool) (v : ShellVariable) :
    Attempt ShellVariable Unit :=
  match initialValue with
  | some value => v.assign value append
  | none => (.ok (), v)

namespace DeclareOptions

variable (o : DeclareOptions)

/-- A declaration of a variable that was found. -/
def declareExisting (verb : DeclareVerb) (d : NameAndValue) (v : ShellVariable) :
    Attempt ShellVariable Unit :=
  match o.convert v with
  | (.error fault, v) => (.error fault, v)
  | (.ok _, v) =>
    match assignInitial d.initialValue d.assignedIndex.isSome (o.applyAttributesBeforeUpdate v) with
    | (.error fault, v) => (.error fault, v)
    | (.ok _, v) => o.applyAttributesAfterUpdate verb v

/-- A declaration of a new variable. -/
def declareNew (verb : DeclareVerb) (exportAll : Bool) (d : NameAndValue) :
    Attempt ShellVariable Unit :=
  let v := ShellVariable.new (.unset (o.unsetType d.nameIsArray))
  match assignInitial d.initialValue false (o.applyAttributesBeforeUpdate v) with
  | (.error fault, v) => (.error fault, v)
  | (.ok _, v) =>
    o.applyAttributesAfterUpdate verb (if exportAll && !v.value.isArray then v.export else v)

def createVarLocal (verb : DeclareVerb) (inFunction : Bool) : Bool :=
  verb = .loc ∨ verb = .declare ∧ inFunction = true ∧ o.createGlobal = false

def lookup (verb : DeclareVerb) (inFunction : Bool) : EnvironmentLookup :=
  if o.createVarLocal verb inFunction then .onlyInCurrentLocal else .anywhere

/-- `process_declaration`: whether it succeeded, if it did not fail. `displayed` is what
`try_display_declaration` returns. -/
def processDeclaration (verb : DeclareVerb) (inFunction exportAll displayed : Bool)
    (declaration : DeclaredArg) (env : ShellEnvironment) : Attempt ShellEnvironment Bool :=
  if o.functionNamesOrDefsOnly || o.functionNamesOnly then (.ok displayed, env)
  else
    match declarationToNameAndValue declaration with
    | .error fault => (.error fault, env)
    | .ok d =>
      if d.name = ['-'] ∧ verb = .loc then (.ok true, env)
      else if !validVariableName d.name then (.ok false, env)
      else
        match env.find (o.lookup verb inFunction) d.name with
        | some (i, v) =>
          let r := env.applyAt i d.name (o.declareExisting verb d v)
          (r.1.map fun _ => true, r.2)
        | none =>
          let scope := if o.createVarLocal verb inFunction then .loc else .global
          let r := env.addNew d.name scope (o.declareNew verb exportAll d)
          (r.1.map fun _ => true, r.2)

end DeclareOptions

/-! ## Exports -/

omit [Casing] in
/-- `export` or `unexport`. -/
def ShellVariable.setExported (v : ShellVariable) (exported : Bool) : ShellVariable :=
  { v with exported }

/-- `|var| { if self.unexport { var.unexport(); } else { var.export(); } Ok(()) }`. -/
def Updater.setExported (exported : Bool) : Updater where
  run v := (.ok (), v.setExported exported)
  value_run _ := rfl
  readonly_run _ := rfl

/-- `ExportCommand::process_decl`: whether it succeeded, if it did not fail. `isFunction` is whether
there is a function of the name. -/
def processDecl (unexport namesAreFunctions isFunction : Bool) (decl : DeclaredArg)
    (env : ShellEnvironment) : Attempt ShellEnvironment Bool :=
  match decl with
  | .string s =>
    if namesAreFunctions then (.ok isFunction, env)
    else
      match env.getMut s with
      | some (i, _, v) => (.ok true, env.setAt i s (some (v.setExported !unexport)))
      | none => (.ok true, env)
  | .assignment a =>
    match a.index with
    | some _ => (.ok false, env)
    | none =>
      match a.append, env.getMut a.name with
      | true, some (i, _, v) =>
        match v.assign a.value true with
        | (.error fault, v) => (.error fault, env.setAt i a.name (some v))
        | (.ok _, v) => (.ok true, env.setAt i a.name (some (v.setExported !unexport)))
      | _, _ =>
        let r := env.updateOrAdd a.name a.value (Updater.setExported !unexport) .anywhere .global
        (r.1.map fun _ => true, r.2)

/-- A command that declares, with what it finds out about functions. -/
inductive DeclarationCommand
  | declare (o : DeclareOptions) (verb : DeclareVerb) (inFunction exportAll displayed : Bool)
  | export (unexport namesAreFunctions isFunction : Bool)

/-- What a command does for one of its arguments. -/
def DeclarationCommand.run : DeclarationCommand → DeclaredArg → ShellEnvironment →
    Attempt ShellEnvironment Bool
  | declare o verb inFunction exportAll displayed =>
    o.processDeclaration verb inFunction exportAll displayed
  | «export» unexport namesAreFunctions isFunction =>
    processDecl unexport namesAreFunctions isFunction

/-! ## Errors of declarations -/

/-- When `assign` reports an error. -/
def ShellVariable.Refuses (v : ShellVariable) (value : ShellValueLiteral) : Prop :=
  v.readonly = true ∨ v.value.isAssociative = true ∧
    ∃ literals, v.convertValueLiteral value = .ok (.array literals) ∧
      misaligned none literals = true

namespace DeclareOptions

variable (o : DeclareOptions)

omit [Casing] in
def prepared (v : ShellVariable) : ShellVariable := o.applyAttributesBeforeUpdate (o.convert v).2

/-- When a declaration leaves a variable alone for which it reports an error: the variable is not
converted twice, and nothing is changed of a variable that refuses what it is assigned or is not
unlocked. -/
structure Spares (verb : DeclareVerb) (d : NameAndValue) (v : ShellVariable) : Prop where
  convert : o.makeAssociativeArray.isSome = true → o.makeIndexedArray.isSome = true →
    (∃ values, v.value = .indexedArray values) ∨ ∃ values, v.value = .associativeArray values
  assign : (o.convert v).1 = .ok () → ∀ value, d.initialValue = some value →
    (o.prepared v).Refuses value → o.prepared v = v ∧ v.KeepsWhole value d.assignedIndex.isSome
  unlock : (o.convert v).1 = .ok () → d.initialValue = none → verb ≠ .readonly →
    o.makeReadonly.toBool = some false → v.readonly = true → o.prepared v = v

end DeclareOptions

/-- When a command leaves alone the variable for which it reports an error. -/
def DeclarationCommand.Spares (command : DeclarationCommand) (declaration : DeclaredArg)
    (env : ShellEnvironment) : Prop :=
  match command with
  | declare o verb inFunction _ _ =>
    (o.functionNamesOrDefsOnly || o.functionNamesOnly) = false →
      ∀ d, declarationToNameAndValue declaration = .ok d → ¬(d.name = ['-'] ∧ verb = .loc) →
        validVariableName d.name = true →
        ∀ i v, env.find (o.lookup verb inFunction) d.name = some (i, v) → o.Spares verb d v
  | «export» _ _ _ =>
    match declaration with
    | .string _ => True
    | .assignment a => a.index = none → a.append = true →
        ∀ i scope v, env.getMut a.name = some (i, scope, v) → v.KeepsWhole a.value true

variable {v : ShellVariable}

namespace ShellVariable

end ShellVariable

namespace DeclareOptions

variable (o : DeclareOptions)

end DeclareOptions

namespace ShellVariable

end ShellVariable

namespace DeclareOptions

variable (o : DeclareOptions)

end DeclareOptions

/-! ## Errors of commands -/

omit [Casing] in
theorem find_anywhere (env : ShellEnvironment) (name : List Char) :
    env.find .anywhere name = (env.getMut name).map fun r => (r.1, r.2.2) := by
  unfold ShellEnvironment.find ShellEnvironment.getMut
  generalize 0 = count
  induction env.scopes generalizing count with
  | nil => rfl
  | cons s scopes ih =>
    obtain ⟨scope, map⟩ := s
    unfold ShellEnvironment.findIn ShellEnvironment.getMutIn
    dsimp only
    rw [if_pos (show ShellEnvironment.admits .anywhere scope _ = true from rfl)]
    cases map name with
    | some v => rfl
    | none =>
      dsimp only
      rw [if_neg (by simp), ih, Option.map_map, Option.map_map]
      rfl

namespace DeclarationCommand

end DeclarationCommand

end

end Seahaven.Shell
