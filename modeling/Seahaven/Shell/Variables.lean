import Mathlib.Data.List.Basic
import Mathlib.Data.Int.Basic
import Std.Data.ExtTreeMap
import Mathlib.Algebra.Order.Ring.Nat

/-!
# Shell variables

A variable is a value and its attributes. Four operations change the value: the assignment of a
whole value, the assignment of one element, the removal of one element, and the conversion to an
array. Each is a function from the variable to its result and the variable it leaves, which a
failed operation may have changed already.

1. `ShellValue`, `ShellVariable`: what is stored.
2. `applyValueTransforms`: what an update does to the text it is given.
3. `assign`, `assignAtIndex`, `unsetIndex`, `convertToIndexedArray`, `convertToAssociativeArray`.
-/

namespace Seahaven.Shell

open Std

/-! ## Errors -/

/-- The errors of variables and environments (`error::ErrorKind`). -/
inductive VariableError
  | readonlyVariable
  | convertingAssociativeArrayToIndexedArray
  | convertingIndexedArrayToAssociativeArray
  | arrayIndexOutOfRange (index : List Char)
  | notArray
  | missingScopeForNewVariable
  | unimplemented (what : String)
  | other (what : String)
  deriving DecidableEq

/-- How an operation ends early: with an error it returns, or with a panic. -/
inductive Fault
  | error (e : VariableError)
  | panic
  deriving DecidableEq

/-- The outcome of an operation on a `σ`: its result, and what it leaves of the `σ`. -/
abbrev Attempt (σ α : Type) := Except Fault α × σ

/-! ## Numbers -/

def parseDigits (s : List Char) : Option Nat :=
  if s ≠ [] ∧ s.all Char.isDigit then
    some (s.foldl (fun n c => 10 * n + (c.toNat - '0'.toNat)) 0)
  else none

/-- `str::parse::<i64>()`. -/
def parseI64 : List Char → Option Int
  | '-' :: s => (parseDigits s).bind fun n => if n ≤ 2 ^ 63 then some (-(n : Int)) else none
  | '+' :: s => (parseDigits s).bind fun n => if n < 2 ^ 63 then some (n : Int) else none
  | s => (parseDigits s).bind fun n => if n < 2 ^ 63 then some (n : Int) else none

/-- `str::parse::<u64>()`. -/
def parseU64 : List Char → Option Nat
  | '+' :: s => (parseDigits s).bind fun n => if n < 2 ^ 64 then some n else none
  | s => (parseDigits s).bind fun n => if n < 2 ^ 64 then some n else none

/-- `i64::to_string()`. -/
def i64ToString (n : Int) : List Char := (toString n).toList

/-- The sum of two integers as texts, which wraps as `i64` does in a release build. -/
def addAsI64 (a b : List Char) : List Char :=
  i64ToString (((parseI64 a).getD 0 + (parseI64 b).getD 0).bmod (2 ^ 64))

/-! ## Values -/

/-- The type of an unset value. -/
inductive ShellValueUnsetType
  | untyped
  | associativeArray
  | indexedArray
  deriving DecidableEq

/-- The value of a variable. A dynamic value is the name of its getter and setter. -/
inductive ShellValue
  | unset (ty : ShellValueUnsetType)
  | string (s : List Char)
  | associativeArray (values : ExtTreeMap (List Char) (List Char))
  | indexedArray (values : ExtTreeMap Nat (List Char))
  | dynamic (accessors : Nat)

/-- What an assignment assigns. -/
inductive ShellValueLiteral
  | scalar (s : List Char)
  | array (literals : List (Option (List Char) × List Char))
  deriving DecidableEq

/-- What an update does to the text it is given. -/
inductive ShellVariableUpdateTransform
  | none
  | lowercase
  | uppercase
  | capitalize
  deriving DecidableEq

/-- A shell variable. -/
structure ShellVariable where
  value : ShellValue
  exported : Bool
  readonly : Bool
  enumerable : Bool
  transformOnUpdate : ShellVariableUpdateTransform
  trace : Bool
  treatAsInteger : Bool
  treatAsNameref : Bool

/-- The case mappings of the Unicode tables. -/
class Casing where
  toLowercase : List Char → List Char
  toUppercase : List Char → List Char

abbrev asciiCasing : Casing where
  toLowercase s := s.map Char.toLower
  toUppercase s := s.map Char.toUpper

namespace ShellValue

/-- `to_cow_str_without_dynamic_support`. -/
def toStrWithoutDynamicSupport : ShellValue → List Char
  | unset _ => []
  | string s => s
  | associativeArray values => values[['0']]?.getD []
  | indexedArray values => values[0]?.getD []
  | dynamic _ => []

/-- One turn of `update_indexed_array_from_literals`: the key to use next, and the values. -/
def insertLiteral (s : Nat × ExtTreeMap Nat (List Char))
    (literal : Option (List Char) × List Char) : Nat × ExtTreeMap Nat (List Char) :=
  let newKey := match literal.1 with
    | some key => (parseU64 key).getD 0
    | none => s.1
  ((newKey + 1) % 2 ^ 64, s.2.insert newKey literal.2)

def updateIndexedArrayFromLiterals (existing : ExtTreeMap Nat (List Char))
    (literals : List (Option (List Char) × List Char)) : ExtTreeMap Nat (List Char) :=
  let newKey := match existing.maxKey? with
    | some largest => (largest + 1) % 2 ^ 64
    | none => 0
  (literals.foldl insertLiteral (newKey, existing)).2

/-- The loop of `update_associative_array_from_literals`, with the key that waits for its
value. -/
def updateAssociativeLoop : Option (List Char) → List (Option (List Char) × List Char) →
    ExtTreeMap (List Char) (List Char) → Attempt (ExtTreeMap (List Char) (List Char)) Unit
  | some currentKey, [], values => (.ok (), values.insert currentKey [])
  | none, [], values => (.ok (), values)
  | some currentKey, (key, value) :: literals, values =>
    if key.isSome then
      (.error (.error (.unimplemented "misaligned keys/values in associative array literal")),
        values)
    else updateAssociativeLoop none literals (values.insert currentKey value)
  | none, (some key, value) :: literals, values =>
    updateAssociativeLoop none literals (values.insert key value)
  | none, (none, value) :: literals, values =>
    updateAssociativeLoop (some value) literals values

def updateAssociativeArrayFromLiterals (existing : ExtTreeMap (List Char) (List Char))
    (literals : List (Option (List Char) × List Char)) :
    Attempt (ExtTreeMap (List Char) (List Char)) Unit :=
  updateAssociativeLoop none literals existing

end ShellValue

/-- `get_key_for_indexed_array`: a negative index counts from the number of elements. -/
def getKeyForIndexedArray (values : ExtTreeMap Nat (List Char)) (index : List Char) :
    Except Fault Nat :=
  let indexValue := (parseI64 index).getD 0
  if indexValue < 0 then
    let indexValue := indexValue + values.size
    if indexValue < 0 then .error (.error (.arrayIndexOutOfRange index))
    else .ok indexValue.toNat
  else .ok indexValue.toNat

namespace ShellVariable

/-- `ShellVariable::new`. -/
def new (value : ShellValue) : ShellVariable where
  value := value
  exported := false
  readonly := false
  enumerable := true
  transformOnUpdate := .none
  trace := false
  treatAsInteger := false
  treatAsNameref := false

def setValue (v : ShellVariable) (value : ShellValue) : ShellVariable := { v with value := value }

/-- `export`. -/
def «export» (v : ShellVariable) : ShellVariable := { v with exported := true }

def setReadonly (v : ShellVariable) : ShellVariable := { v with readonly := true }

/-! ## Conversions -/

def convertToIndexedArray (v : ShellVariable) : Attempt ShellVariable Unit :=
  match v.value with
  | .indexedArray _ => (.ok (), v)
  | .associativeArray _ => (.error (.error .convertingAssociativeArrayToIndexedArray), v)
  | value =>
    (.ok (), v.setValue (.indexedArray
      ((∅ : ExtTreeMap Nat (List Char)).insert 0 value.toStrWithoutDynamicSupport)))

def convertToAssociativeArray (v : ShellVariable) : Attempt ShellVariable Unit :=
  match v.value with
  | .associativeArray _ => (.ok (), v)
  | .indexedArray _ => (.error (.error .convertingIndexedArrayToAssociativeArray), v)
  | value =>
    (.ok (), v.setValue (.associativeArray
      ((∅ : ExtTreeMap (List Char) (List Char)).insert ['0'] value.toStrWithoutDynamicSupport)))

/-! ## Updates of texts -/

variable [Casing]

/-- `apply_value_transforms`. The capitalized first character replaces the first byte, so a
text that starts with a longer character panics. -/
def applyValueTransforms (treatAsInt : Bool) (transform : ShellVariableUpdateTransform)
    (s : List Char) : Except Fault (List Char) :=
  if treatAsInt then .ok (i64ToString ((parseI64 s).getD 0))
  else match transform with
    | .none => .ok s
    | .lowercase => .ok (Casing.toLowercase s)
    | .uppercase => .ok (Casing.toUppercase s)
    | .capitalize =>
      match Casing.toLowercase s with
      | [] => .ok []
      | c :: cs => if c.utf8Size = 1 then .ok (Casing.toUppercase [c] ++ cs) else .error .panic

/-- `convert_value_str_for_assignment`. -/
def convertValueStr (v : ShellVariable) (s : List Char) : Except Fault (List Char) :=
  applyValueTransforms v.treatAsInteger v.transformOnUpdate s

/-- `convert_value_literal_for_assignment`. -/
def convertValueLiteral (v : ShellVariable) : ShellValueLiteral → Except Fault ShellValueLiteral
  | .scalar s => (v.convertValueStr s).map .scalar
  | .array literals =>
    (literals.mapM fun l => (v.convertValueStr l.2).map fun s => (l.1, s)).map .array

/-! ## Assignment -/

/-- The branches of `assign` without `append` that store an array literal. -/
def replaceByArray (v : ShellVariable) (literals : List (Option (List Char) × List Char)) :
    Attempt ShellVariable Unit :=
  match v.value with
  | .associativeArray _ | .unset .associativeArray =>
    match ShellValue.updateAssociativeArrayFromLiterals ∅ literals with
    | (.ok _, values) => (.ok (), v.setValue (.associativeArray values))
    | (.error e, _) => (.error e, v)
  | _ =>
    (.ok (), v.setValue (.indexedArray (ShellValue.updateIndexedArrayFromLiterals ∅ literals)))

/-- `self.assign(ShellValueLiteral::Array(ArrayLiteral(vec![])), false)`. -/
def assignEmptyArray (v : ShellVariable) : Attempt ShellVariable Unit :=
  if v.readonly then (.error (.error .readonlyVariable), v) else v.replaceByArray []

/-- What an assignment stores in an element that holds `existing`. -/
def elementValue (v : ShellVariable) (existing : Option (List Char)) (value : List Char)
    (append : Bool) : List Char :=
  if append then
    if v.treatAsInteger then addAsI64 (existing.getD []) value else existing.getD [] ++ value
  else value

/-- The second half of `assign_at_index`, once the variable has been made an array. -/
def storeAtIndex (v : ShellVariable) (index value : List Char) (append : Bool) :
    Attempt ShellVariable Unit :=
  match v.convertValueStr value with
  | .error e => (.error e, v)
  | .ok value =>
    match v.value with
    | .indexedArray arr =>
      match getKeyForIndexedArray arr index with
      | .error e => (.error e, v)
      | .ok key =>
        (.ok (), v.setValue
          (.indexedArray (arr.insert key (v.elementValue arr[key]? value append))))
    | .associativeArray arr =>
      (.ok (), v.setValue
        (.associativeArray (arr.insert index (v.elementValue arr[index]? value append))))
    | _ => (.error (.error (.unimplemented "assigning to index of non-array variable")), v)

def assignAtIndex (v : ShellVariable) (index value : List Char) (append : Bool) :
    Attempt ShellVariable Unit :=
  match v.value with
  | .unset _ =>
    match v.assignEmptyArray with
    | (.ok _, v) => v.storeAtIndex index value append
    | (.error e, v) => (.error e, v)
  | .string _ =>
    match v.convertToIndexedArray with
    | (.ok _, v) => v.storeAtIndex index value append
    | (.error e, v) => (.error e, v)
  | _ => v.storeAtIndex index value append

/-- The branches of `assign` without `append`. -/
def replaceBy (v : ShellVariable) : ShellValueLiteral → Attempt ShellVariable Unit
  | .scalar s =>
    match v.value with
    | .indexedArray _ | .associativeArray _ | .unset .associativeArray | .unset .indexedArray =>
      v.assignAtIndex ['0'] s false
    | .dynamic _ => (.ok (), v)
    | .string _ | .unset .untyped => (.ok (), v.setValue (.string s))
  | .array literals => v.replaceByArray literals

/-- What `assign` with `append` does first: a variable that is declared but unset is filled
out, and a string to which an array is appended becomes an array. -/
def prepareAppend (v : ShellVariable) (value : ShellValueLiteral) : Attempt ShellVariable Unit :=
  match v.value, value with
  | .unset .untyped, .scalar _ =>
    -- `self.assign(Scalar(""), false)`, whose text is transformed like any other
    match v.convertValueStr [] with
    | .ok s => v.replaceBy (.scalar s)
    | .error e => (.error e, v)
  | .unset _, _ => v.assignEmptyArray
  | .string _, .array _ => v.convertToIndexedArray
  | _, _ => (.ok (), v)

/-- The branches of `assign` with `append`, once the variable has been prepared. -/
def appendTo (v : ShellVariable) (value : ShellValueLiteral) : Attempt ShellVariable Unit :=
  match v.value, value with
  | .string base, .scalar suffix =>
    if v.treatAsInteger then (.ok (), v.setValue (.string (addAsI64 base suffix)))
    else
      match applyValueTransforms false v.transformOnUpdate (base ++ suffix) with
      | .ok s => (.ok (), v.setValue (.string s))
      | .error e => (.error e, v.setValue (.string (Casing.toLowercase (base ++ suffix))))
  | .string _, .array _ => (.ok (), v)
  | .indexedArray _, .scalar s => v.assignAtIndex ['0'] s true
  | .indexedArray existing, .array literals =>
    (.ok (), v.setValue
      (.indexedArray (ShellValue.updateIndexedArrayFromLiterals existing literals)))
  | .associativeArray _, .scalar s => v.assignAtIndex ['0'] s true
  | .associativeArray existing, .array literals =>
    let r := ShellValue.updateAssociativeArrayFromLiterals existing literals
    (r.1, v.setValue (.associativeArray r.2))
  | .unset _, _ => (.error .panic, v)
  | .dynamic _, _ => (.ok (), v)

def assign (v : ShellVariable) (value : ShellValueLiteral) (append : Bool) :
    Attempt ShellVariable Unit :=
  if v.readonly then (.error (.error .readonlyVariable), v)
  else
    match v.convertValueLiteral value with
    | .error e => (.error e, v)
    | .ok value =>
      if append then
        match v.prepareAppend value with
        | (.error e, v) => (.error e, v)
        | (.ok _, v) => v.appendTo value
      else v.replaceBy value

/-! ## Removal -/

omit [Casing] in
/-- `unset_index`: whether an element was removed. -/
def unsetIndex (v : ShellVariable) (index : List Char) : Attempt ShellVariable Bool :=
  match v.value with
  | .unset .untyped => (.error (.error .notArray), v)
  | .unset _ => (.ok false, v)
  | .string _ => (.error (.error .notArray), v)
  | .associativeArray values =>
    (.ok (values.contains index), v.setValue (.associativeArray (values.erase index)))
  | .indexedArray values =>
    match getKeyForIndexedArray values index with
    | .error e => (.error e, v)
    | .ok key =>
      (.ok (values.contains key), v.setValue (.indexedArray (values.erase key)))
  | .dynamic _ => (.ok false, v)

end ShellVariable

end Seahaven.Shell
