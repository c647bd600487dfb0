import Seahaven.Arithmetic.Grammar
import Seahaven.Lib.Fuel
import Seahaven.Shell.Scopes

/-!
# Evaluation of arithmetic expressions

An expression is evaluated against the variables of the shell. A variable that it names is an
expression again: its text is parsed and evaluated, one dereference deeper, unless it is a number.
Assignments write to the variables while the evaluation is under way.

1. `applyUnaryOp`, `operate`: the operators on numbers of 64 bits.
2. `derefLvalue`, `assign`: the variables and array elements that an expression names.
3. `evalStep`: the evaluation over its recursive calls, and `evalFuel`, its runs.
-/

namespace Seahaven.Arithmetic

open Shell

/-! ## Errors and states -/

inductive EvalError
  | divideByZero
  | negativeExponent
  | failedToTokenizeExpression
  | failedToExpandExpression (expr : List Char)
  | failedToAccessArray
  | failedToUpdateEnvironment
  | parseError (text : List Char)
  | expandingUnsetVariable (name : List Char)
  | recursionLimitExceeded
  deriving DecidableEq

/-- How an evaluation ends early: with an error it returns, with a panic, or because its fuel is
used up. -/
inductive Stop
  | error (e : EvalError)
  | panic
  | outOfFuel
  deriving DecidableEq

/-- What an evaluation knows of the shell. -/
structure ArithShell where
  env : ShellEnvironment
  treatUnsetVariablesAsError : Bool

/-- The getters of the dynamic variables, none of which returns a dynamic value. -/
class Getters where
  get : Nat → ArithShell → ShellValue
  get_ne : ∀ i s j, get i s ≠ .dynamic j

abbrev Eval := Op ArithShell Stop

def failure {α : Type} (e : EvalError) : Eval α := Op.check (.error (.error e))

/-! ## Operators -/

/-- `wrapping_div`, which panics if the divisor is zero. -/
def wrappingDiv (left right : Int64) : Except Stop Int64 :=
  if right = 0 then .error .panic else .ok (left / right)

/-- `wrapping_rem`, which panics if the divisor is zero. -/
def wrappingRem (left right : Int64) : Except Stop Int64 :=
  if right = 0 then .error .panic else .ok (left % right)

/-- `wrapping_shl` by a number of 32 bits, of which it uses the last six. -/
def wrappingShl (left : Int64) (right : UInt32) : Int64 :=
  .ofBitVec (left.toBitVec <<< (right.toNat % 64))

/-- `wrapping_shr` by a number of 32 bits, of which it uses the last six. -/
def wrappingShr (left : Int64) (right : UInt32) : Int64 :=
  .ofBitVec (left.toBitVec.sshiftRight (right.toNat % 64))

/-- The loop of `wrapping_pow_u64`. -/
def powLoop (base : Int64) (exponent : Nat) (result : Int64) : Int64 :=
  if exponent = 0 then result
  else powLoop (base * base) (exponent / 2) (if exponent % 2 = 1 then result * base else result)
termination_by exponent

/-- `wrapping_pow_u64`. -/
def wrappingPow (base : Int64) (exponent : UInt64) : Int64 := powLoop base exponent.toNat 1

/-- `bool_to_i64`. -/
def boolToI64 (value : Bool) : Int64 := if value then 1 else 0

/-- The second half of `apply_unary_op`. -/
def unaryValue (op : UnaryOperator) (operand : Int64) : Int64 :=
  match op with
  | .unaryPlus => operand
  | .unaryMinus => -operand
  | .bitwiseNot => ~~~operand
  | .logicalNot => boolToI64 (operand = 0)

/-- The last part of `apply_binary_op`, once both operands have been evaluated. -/
def operate (op : BinaryOperator) (left right : Int64) : Except Stop Int64 :=
  match op with
  | .power =>
    if 0 ≤ right then .ok (wrappingPow left right.toUInt64)
    else .error (.error .negativeExponent)
  | .multiply => .ok (left * right)
  | .divide => if right = 0 then .error (.error .divideByZero) else wrappingDiv left right
  | .modulo => if right = 0 then .error (.error .divideByZero) else wrappingRem left right
  | .comma => .ok right
  | .add => .ok (left + right)
  | .subtract => .ok (left - right)
  | .shiftLeft => .ok (wrappingShl left right.toUInt64.toUInt32)
  | .shiftRight => .ok (wrappingShr left right.toUInt64.toUInt32)
  | .lessThan => .ok (boolToI64 (left < right))
  | .lessThanOrEqualTo => .ok (boolToI64 (left ≤ right))
  | .greaterThan => .ok (boolToI64 (right < left))
  | .greaterThanOrEqualTo => .ok (boolToI64 (right ≤ left))
  | .equals => .ok (boolToI64 (left = right))
  | .notEquals => .ok (boolToI64 (left ≠ right))
  | .bitwiseAnd => .ok (left &&& right)
  | .bitwiseXor => .ok (left ^^^ right)
  | .bitwiseOr => .ok (left ||| right)
  -- `unreachable!`
  | .logicalAnd => .error .panic
  | .logicalOr => .error .panic

/-! ## Variables -/

/-- `i64::to_string`. -/
def toText (n : Int64) : List Char := i64ToString n.toInt

section

variable [Getters]

def resolveValue (value : ShellValue) (s : ArithShell) : ShellValue :=
  match value with
  | .dynamic accessors => Getters.get accessors s
  | value => value

def isSet : ShellValue → Bool
  | .unset _ => false
  | _ => true

def getVarValue (name : List Char) (s : ArithShell) : Except Stop (List Char) :=
  match (s.env.get name).map fun r => resolveValue r.2.value s with
  | some value =>
    if isSet value then .ok value.toStrWithoutDynamicSupport
    else if s.treatUnsetVariablesAsError then .error (.error (.expandingUnsetVariable name))
    else .ok []
  | none =>
    if s.treatUnsetVariablesAsError then .error (.error (.expandingUnsetVariable name)) else .ok []

def getAt (value : ShellValue) (index : List Char) (s : ArithShell) :
    Except Fault (Option (List Char)) :=
  match resolveValue value s with
  | .unset _ => .ok none
  | .string text => .ok (if (parseU64 index).getD 0 = 0 then some text else none)
  | .associativeArray values => .ok values[index]?
  | .indexedArray values =>
    match getKeyForIndexedArray values index with
    | .error e => .error e
    | .ok key => .ok values[key]?
  -- no getter returns a dynamic value
  | .dynamic _ => .ok none

/-- The text of an array element. -/
def getElement (name index : List Char) (s : ArithShell) : Except Stop (List Char) :=
  match s.env.get name with
  | none => .ok []
  | some (_, v) =>
    match getAt v.value index s with
    | .ok text => .ok (text.getD [])
    | .error _ => .error (.error .failedToAccessArray)

end

/-- `update_environment`: the outcome of a change of the variables. -/
def updated (f : ShellEnvironment → Attempt ShellEnvironment Unit) : Eval Unit := fun s =>
  match f s.env with
  | (.ok _, env) => (.ok (), { s with env })
  | (.error (.error _), env) => (.error (.error .failedToUpdateEnvironment), { s with env })
  | (.error .panic, env) => (.error .panic, { s with env })

/-! ## Evaluation -/

def maxVariableDerefDepth : Nat := 1024

section

variable [Casing] [Getters]

-- the evaluation of an expression at a depth
variable (eval : ArithmeticExpr × Nat → Eval Int64)

/-- The text of what an expression names. -/
def lvalueText (lvalue : ArithmeticTarget) (depth : Nat) : Eval (List Char) :=
  match lvalue with
  | .var name => Op.read (getVarValue name)
  | .arrayElement name index => do
    let index ← eval (index, depth)
    Op.read (getElement name (toText index))

/-- The evaluation of a text, which is one dereference deeper unless it is a number. -/
def evalText (text : List Char) (depth : Nat) : Eval Int64 :=
  match parse text with
  | none => failure (.parseError text)
  | some (.literal l) => eval (.literal l, depth)
  | some parsed =>
    let newDepth := depth + 1
    if maxVariableDerefDepth < newDepth then failure .recursionLimitExceeded
    else eval (parsed, newDepth)

def derefLvalue (lvalue : ArithmeticTarget) (depth : Nat) : Eval Int64 := do
  let text ← lvalueText eval lvalue depth
  evalText eval text depth

def applyBinaryOp (op : BinaryOperator) (left right : ArithmeticExpr) (depth : Nat) :
    Eval Int64 :=
  match op with
  | .logicalAnd => do
    let left ← eval (left, depth)
    if left = 0 then return boolToI64 false
    else
      let right ← eval (right, depth)
      return boolToI64 (right ≠ 0)
  | .logicalOr => do
    let left ← eval (left, depth)
    if left ≠ 0 then return boolToI64 true
    else
      let right ← eval (right, depth)
      return boolToI64 (right ≠ 0)
  | op => do
    let left ← eval (left, depth)
    let right ← eval (right, depth)
    Op.check (operate op left right)

def storeElement (name : List Char) (index value : Int64) : Eval Unit :=
  updated fun env => env.updateOrAddArrayElement name (toText index) (toText value) .skip
    .anywhere .global

def assign (lvalue : ArithmeticTarget) (value : Int64) (depth : Nat) : Eval Int64 :=
  match lvalue with
  | .var name => do
    updated fun env => env.updateOrAdd name (.scalar (toText value)) .skip .anywhere .global
    return value
  | .arrayElement name index => do
    let index ← eval (index, depth)
    storeElement name index value
    return value

def applyUnaryAssignmentOp (op : UnaryAssignmentOperator) (lvalue : ArithmeticTarget)
    (depth : Nat) : Eval Int64 := do
  let value ← derefLvalue eval lvalue depth
  match op with
  | .prefixIncrement =>
    let newValue := value + 1
    let _ ← assign eval lvalue newValue depth
    return newValue
  | .prefixDecrement =>
    let newValue := value - 1
    let _ ← assign eval lvalue newValue depth
    return newValue
  | .postfixIncrement =>
    let newValue := value + 1
    let _ ← assign eval lvalue newValue depth
    return value
  | .postfixDecrement =>
    let newValue := value - 1
    let _ ← assign eval lvalue newValue depth
    return value

/-- `eval_expr_impl`, over its recursive calls. -/
def evalStep : ArithmeticExpr × Nat → Eval Int64
  | (.literal l, _) => pure l
  | (.reference lvalue, depth) => derefLvalue eval lvalue depth
  | (.unaryOp op operand, depth) => do
    let operand ← eval (operand, depth)
    return unaryValue op operand
  | (.binaryOp op left right, depth) => applyBinaryOp eval op left right depth
  | (.conditional condition thenExpr elseExpr, depth) => do
    let condition ← eval (condition, depth)
    if condition ≠ 0 then eval (thenExpr, depth) else eval (elseExpr, depth)
  | (.assignment lvalue rhs, depth) => do
    let value ← eval (rhs, depth)
    assign eval lvalue value depth
  | (.unaryAssignment op lvalue, depth) => applyUnaryAssignmentOp eval op lvalue depth
  | (.binaryAssignment op lvalue operand, depth) => do
    let value ← applyBinaryOp eval op (.reference lvalue) operand depth
    assign eval lvalue value depth

end

variable [Casing] [Getters]

/-- `eval_expr_impl`, with an amount of fuel for its recursive calls. -/
def evalFuel : Nat → ArithmeticExpr × Nat → Eval Int64 := Fuel.run .outOfFuel evalStep

end Seahaven.Arithmetic
