import Seahaven.Arithmetic.Syntax
import Seahaven.Lib.Peg
import Seahaven.Shell.Variables

/-!
# The grammar of arithmetic expressions

An expression is read by precedence climbing: an atom or a prefix operator, then as many infix
operators as bind tightly enough. The alternatives are tried in the order of the grammar, those of
all prefix operators whatever the precedence asked for.

1. `literalNumber`: the four notations of a number, of which one that cannot be converted falls
   through to the next.
2. `prefixAtom`, `tryInfix`: the alternatives, over the rule for what is inside them.
3. `infixParse`, `parse`: an expression, so deep, and one that is the whole of an input.
-/

namespace Seahaven.Arithmetic

open Shell (parseU64)

/-! ## Literals -/

/-- The value of a digit in a base of `parse_shell_literal_number`. -/
def digitValue (radix : Nat) (ch : Char) : Option Nat :=
  if '0' ≤ ch ∧ ch ≤ '9' then some (ch.toNat - '0'.toNat)
  else if 'a' ≤ ch ∧ ch ≤ 'z' then some (ch.toNat - 'a'.toNat + 10)
  else if 'A' ≤ ch ∧ ch ≤ 'Z' then
    some (ch.toNat - 'A'.toNat + if radix ≤ 36 then 10 else 36)
  else if radix ≤ 36 then none
  else if ch = '@' then some 62
  else if ch = '_' then some 63
  else none

/-- One turn of the loop of `parse_shell_literal_number`. -/
def addDigit (radix : Nat) (result : Int64) (ch : Char) : Option Int64 :=
  match digitValue radix ch with
  | none => none
  | some digit =>
    if radix ≤ digit then none else some (result * Int64.ofNat radix + Int64.ofNat digit)

/-- `parse_shell_literal_number`, whose arithmetic wraps. -/
def parseShellLiteralNumber (s : List Char) (radix : Nat) : Option Int64 :=
  if 2 ≤ radix ∧ radix ≤ 64 then s.foldlM (addDigit radix) 0 else none

def digitsValue (radix : Nat) (s : List Char) : Option Nat :=
  s.foldlM (fun n ch => match digitValue radix ch with
    | none => none
    | some digit => if radix ≤ digit then none else some (radix * n + digit)) 0

/-- `i64::from_str_radix`, of a text without a sign in a base of at most 36. -/
def fromStrRadix (s : List Char) (radix : Nat) : Option Int64 :=
  if s = [] then none
  else (digitsValue radix s).bind fun n => if n < 2 ^ 63 then some (Int64.ofNat n) else none

def decimalLiteral : Peg.Rule Char Int64
  | [] => none
  | c :: s =>
    if '1' ≤ c ∧ c ≤ '9' then
      let (digits, rest) := s.span Char.isDigit
      (parseU64 (c :: digits)).map fun v => (Int64.ofNat v, rest)
    else none

def isBaseDigit (c : Char) : Bool := c.isDigit || c.isLower || c.isUpper || c = '@' || c = '_'

def isHexDigit (c : Char) : Bool := c.isDigit || ('a' ≤ c && c ≤ 'f') || ('A' ≤ c && c ≤ 'F')

/-- What the octal alternative takes for a digit: `['0'..='8']`. -/
def isOctalDigit (c : Char) : Bool := '0' ≤ c && c ≤ '8'

/-- A literal with an explicit base. -/
def baseLiteral : Peg.Rule Char Int64 := fun s =>
  match decimalLiteral s with
  | some (radix, '#' :: t) =>
    match t.span isBaseDigit with
    | ([], _) => none
    | (digits, rest) =>
      (parseShellLiteralNumber digits radix.toUInt64.toNat).map fun v => (v, rest)
  | _ => none

/-- A hexadecimal literal. -/
def hexLiteral : Peg.Rule Char Int64
  | '0' :: x :: s =>
    if x = 'x' ∨ x = 'X' then
      let (digits, rest) := s.span isHexDigit
      (fromStrRadix digits 16).map fun v => (v, rest)
    else none
  | _ => none

def octalLiteral : Peg.Rule Char Int64
  | '0' :: s =>
    let (digits, rest) := s.span isOctalDigit
    (fromStrRadix ('0' :: digits) 8).map fun v => (v, rest)
  | _ => none

def literalNumber : Peg.Rule Char Int64 := fun s =>
  (baseLiteral s).or ((hexLiteral s).or ((octalLiteral s).or (decimalLiteral s)))

/-! ## Names and blanks -/

def variableName : Peg.Rule Char (List Char)
  | [] => none
  | c :: s =>
    if c.isLower ∨ c.isUpper ∨ c = '_' then
      let (name, rest) := s.span fun c => c.isLower || c.isUpper || c = '_' || c.isDigit
      some (c :: name, rest)
    else none

/-- `_`. -/
def blanks (s : List Char) : List Char :=
  s.dropWhile fun c => c = ' ' || c = '\t' || c = '\n' || c = '\r'

def expect : List Char → List Char → Option (List Char)
  | [], s => some s
  | _ :: _, [] => none
  | c :: text, d :: s => if c = d then expect text s else none

/-! ## Alternatives -/

def assignmentOperators : List (List Char × Option BinaryOperator) :=
  [(['*', '='], some .multiply), (['/', '='], some .divide), (['%', '='], some .modulo),
    (['+', '='], some .add), (['-', '='], some .subtract), (['<', '<', '='], some .shiftLeft),
    (['>', '>', '='], some .shiftRight), (['&', '='], some .bitwiseAnd),
    (['|', '='], some .bitwiseOr), (['^', '='], some .bitwiseXor), (['='], none)]

/-- An infix operator with its precedence. -/
inductive Infix
  | binary (prec : Nat) (text : List Char) (op : BinaryOperator) (right : Bool)
  | conditional (prec : Nat)

/-- The infix operators, in their order. -/
def infixOperators : List Infix :=
  [.binary 0 [','] .comma false,
    .conditional 2,
    .binary 3 ['|', '|'] .logicalOr false,
    .binary 4 ['&', '&'] .logicalAnd false,
    .binary 5 ['|'] .bitwiseOr false,
    .binary 6 ['^'] .bitwiseXor false,
    .binary 7 ['&'] .bitwiseAnd false,
    .binary 8 ['=', '='] .equals false, .binary 8 ['!', '='] .notEquals false,
    .binary 9 ['<'] .lessThan false, .binary 9 ['>'] .greaterThan false,
    .binary 9 ['<', '='] .lessThanOrEqualTo false,
    .binary 9 ['>', '='] .greaterThanOrEqualTo false,
    .binary 10 ['<', '<'] .shiftLeft false, .binary 10 ['>', '>'] .shiftRight false,
    .binary 11 ['+'] .add false, .binary 11 ['-'] .subtract false,
    .binary 12 ['*'] .multiply false, .binary 12 ['%'] .modulo false,
    .binary 12 ['/'] .divide false,
    .binary 13 ['*', '*'] .power true]

section

-- the rule for what is inside an alternative, by the precedence asked for
variable (inner : Nat → Peg.Rule Char ArithmeticExpr)

def lvalue : Peg.Rule Char ArithmeticTarget := fun s =>
  match variableName s with
  | none => none
  | some (name, '[' :: t) =>
    match inner 0 t with
    | some (index, ']' :: rest) => some (.arrayElement name index, rest)
    | _ => some (.var name, '[' :: t)
  | some (name, t) => some (.var name, t)

/-- An assignment with an operator, or with none. -/
def tryAssignment (s : List Char) (o : List Char × Option BinaryOperator) :
    Option (ArithmeticExpr × List Char) := do
  let (x, t) ← lvalue inner s
  let u ← expect o.1 (blanks t)
  let (y, rest) ← inner 1 (blanks u)
  return (match o.2 with
    | some op => .binaryAssignment op x y
    | none => .assignment x y, rest)

/-- A prefix operator that is not followed by what is excluded. -/
def tryUnary (text : Char) (excluded : Option Char) (op : UnaryOperator) (prec : Nat) :
    Peg.Rule Char ArithmeticExpr
  | [] => none
  | c :: s =>
    if c = text ∧ (excluded.isNone ∨ s.head? ≠ excluded) then
      (inner prec (blanks s)).map fun (x, rest) => (.unaryOp op x, rest)
    else none

def tryPrefixAssignment (text : List Char) (op : UnaryAssignmentOperator) :
    Peg.Rule Char ArithmeticExpr := fun s =>
  (expect text s).bind fun t =>
    (lvalue inner (blanks t)).map fun (x, rest) => (.unaryAssignment op x, rest)

def tryPostfixAssignment (text : List Char) (op : UnaryAssignmentOperator) :
    Peg.Rule Char ArithmeticExpr := fun s =>
  (lvalue inner s).bind fun (x, t) =>
    (expect text (blanks t)).map fun rest => (.unaryAssignment op x, rest)

def parenthesized : Peg.Rule Char ArithmeticExpr
  | '(' :: s =>
    (inner 0 (blanks s)).bind fun (e, t) => (expect [')'] (blanks t)).map fun rest => (e, rest)
  | _ => none

/-- The atoms and the prefix operators. -/
def prefixAtom : Peg.Rule Char ArithmeticExpr := fun s =>
  (assignmentOperators.findSome? (tryAssignment inner s)).or <|
    (tryUnary inner '!' none .logicalNot 14 s).or <|
    (tryUnary inner '~' none .bitwiseNot 14 s).or <|
    (tryUnary inner '+' (some '+') .unaryPlus 15 s).or <|
    (tryUnary inner '-' (some '-') .unaryMinus 15 s).or <|
    (tryPrefixAssignment inner ['+', '+'] .prefixIncrement s).or <|
    (tryPrefixAssignment inner ['-', '-'] .prefixDecrement s).or <|
    (tryPostfixAssignment inner ['+', '+'] .postfixIncrement s).or <|
    (tryPostfixAssignment inner ['-', '-'] .postfixDecrement s).or <|
    ((literalNumber s).map fun (n, rest) => (ArithmeticExpr.literal n, rest)).or <|
    ((lvalue inner s).map fun (l, rest) => (ArithmeticExpr.reference l, rest)).or <|
    parenthesized inner s

/-- An infix operator that binds tightly enough, with what is to the right of it. -/
def tryInfix (minPrec : Nat) (x : ArithmeticExpr) (s : List Char) :
    Infix → Option (ArithmeticExpr × List Char)
  | .binary prec text op right =>
    if minPrec ≤ prec then do
      let t ← expect text (blanks s)
      let (y, rest) ← inner (if right then prec else prec + 1) (blanks t)
      return (.binaryOp op x y, rest)
    else none
  | .conditional prec =>
    if minPrec ≤ prec then do
      let t ← expect ['?'] (blanks s)
      let (y, u) ← inner 0 (blanks t)
      let v ← expect [':'] (blanks u)
      let (z, rest) ← inner prec (blanks v)
      return (.conditional x y z, rest)
    else none

/-- The infix operators behind an expression, at most so many. -/
def climb (minPrec : Nat) : Nat → ArithmeticExpr → List Char → ArithmeticExpr × List Char
  | 0, x, s => (x, s)
  | n + 1, x, s =>
    match infixOperators.findSome? (tryInfix inner minPrec x s) with
    | some (y, t) => climb minPrec n y t
    | none => (x, s)

end

/-- `expression` from a precedence on, at most so deep. -/
def infixParse : Nat → Nat → Peg.Rule Char ArithmeticExpr
  | 0, _, _ => none
  | n + 1, minPrec, s =>
    (prefixAtom (infixParse n) s).map fun (x, t) => climb (infixParse n) minPrec t.length x t

def parse (input : List Char) : Option ArithmeticExpr :=
  if input = [] then some (.literal 0)
  else
    match infixParse (input.length + 1) 0 (blanks input) with
    | some (e, rest) => if blanks rest = [] then some e else none
    | none => none

end Seahaven.Arithmetic
