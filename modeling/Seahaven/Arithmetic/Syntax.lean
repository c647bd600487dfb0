import Mathlib.Data.List.Basic

/-!
# Arithmetic expressions

The syntax trees of arithmetic expressions. A literal is a number of 64 bits.
-/

namespace Seahaven.Arithmetic

inductive UnaryOperator
  | unaryPlus
  | unaryMinus
  | bitwiseNot
  | logicalNot
  deriving DecidableEq

inductive BinaryOperator
  | power
  | multiply
  | divide
  | modulo
  | comma
  | add
  | subtract
  | shiftLeft
  | shiftRight
  | lessThan
  | lessThanOrEqualTo
  | greaterThan
  | greaterThanOrEqualTo
  | equals
  | notEquals
  | bitwiseAnd
  | bitwiseXor
  | bitwiseOr
  | logicalAnd
  | logicalOr
  deriving DecidableEq

inductive UnaryAssignmentOperator
  | prefixIncrement
  | prefixDecrement
  | postfixIncrement
  | postfixDecrement
  deriving DecidableEq

mutual

inductive ArithmeticExpr
  | literal (l : Int64)
  | reference (lvalue : ArithmeticTarget)
  | unaryOp (op : UnaryOperator) (operand : ArithmeticExpr)
  | binaryOp (op : BinaryOperator) (left right : ArithmeticExpr)
  | conditional (condition thenExpr elseExpr : ArithmeticExpr)
  | assignment (lvalue : ArithmeticTarget) (rhs : ArithmeticExpr)
  | binaryAssignment (op : BinaryOperator) (lvalue : ArithmeticTarget) (operand : ArithmeticExpr)
  | unaryAssignment (op : UnaryAssignmentOperator) (lvalue : ArithmeticTarget)

inductive ArithmeticTarget
  | var (name : List Char)
  | arrayElement (name : List Char) (index : ArithmeticExpr)

end

deriving instance DecidableEq for ArithmeticExpr, ArithmeticTarget

end Seahaven.Arithmetic
