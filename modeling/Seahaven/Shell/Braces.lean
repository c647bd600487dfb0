import Mathlib.Data.List.Basic
import Mathlib.Data.List.Flatten
import Seahaven.Lib.Logged
import Mathlib.Algebra.Order.Ring.Nat

/-!
# Brace expansion

A brace expression is a list of members: sequences of numbers or letters, and children, which are
expansions of their own. An expansion computes the number of fields of a piece before it makes
any of them, gives up when there are too many, and joins the pieces by a cartesian product. The
sequences are iterators, which run when a piece is collected.

1. `BraceExpressionOrText`: the trees.
2. `sequenceLen`, `Lazy`: a member before it is collected.
3. `numbers`, `chars`: the iterators.
4. `combine`: the expansion.

An arithmetic overflow ends an expansion (`Stop.overflow`), and an iterator that has not come to
its end within `fuel` elements ends it too (`Stop.outOfFuel`). The log holds what an expansion has
made: the elements of each sequence it collects, and the number of strings that it holds for one
piece.
-/

namespace Seahaven.Shell.Braces

/-- A letter (the rule `character`). -/
structure Letter where
  char : Char
  isLetter : char.isAlpha = true

mutual

/-- A piece of a word. -/
inductive BraceExpressionOrText
  | expr (members : List BraceExpressionMember)
  | text (s : List Char)

/-- A member of a brace expression. -/
inductive BraceExpressionMember
  | numberSequence (start «end» increment : Int64)
  | charSequence (start «end» : Letter) (increment : Int64)
  | child (elements : List BraceExpressionOrText)

end

/-- How an expansion ends early. -/
inductive Stop
  | tooMuchData
  | overflow
  | outOfFuel
  deriving DecidableEq

def maxBraceExpansionFields : Nat := 2 ^ 20

/-! ## Sequences -/

/-- A sequence: its bounds and its increment. -/
inductive Sequence
  | numbers (start «end» increment : Int64)
  | chars (start «end» : Letter) (increment : Int64)

/-- `increment.unsigned_abs() as usize`, or 1. -/
def stepOf (increment : Int64) : Nat :=
  if increment.toInt.natAbs = 0 then 1 else increment.toInt.natAbs

/-- The code of a letter (`u32::from`). -/
def Letter.code (l : Letter) : Nat := l.char.toNat

/-- `usize::MAX`. -/
def usizeMax : Nat := 2 ^ 64 - 1

def sequenceLen (start «end» : Int) (increment : Nat) : Nat :=
  min (((«end» - start).natAbs) / increment + 1) usizeMax

/-- `(start..=end).step_by(increment)`. -/
def stepBy (start «end» : Int) (increment : Nat) : List Int :=
  (List.range ((«end» - start).toNat / increment + 1)).map fun j : Nat =>
    start + (increment * j : Nat)

/-- The elements of `std::iter::successors(Some(x), next)`, of which the fuel allows so many. -/
def successors {α : Type} (next : α → Except Stop (Option α)) : Nat → α → Except Stop (List α)
  | 0, _ => .error .outOfFuel
  | fuel + 1, x =>
    match next x with
    | .error e => .error e
    | .ok none => .ok [x]
    | .ok (some y) => (successors next fuel y).map (x :: ·)

/-- `increment as i64`. -/
def asI64 (increment : Nat) : Int := (increment : Int).bmod (2 ^ 64)

/-- The successor in a descending sequence of numbers: `n - increment`, an `i64`, if it is not past
`end`. -/
def numberBelow («end» : Int) (increment : Int) (n : Int) : Except Stop (Option Int) :=
  let next := n - increment
  if next < -2 ^ 63 ∨ 2 ^ 63 ≤ next then .error .overflow
  else .ok (if «end» ≤ next then some next else none)

/-- `char::from_u32`. -/
def charFromU32 (n : Nat) : Option Char := if n.isValidChar then some (Char.ofNat n) else none

/-- The successor in a descending sequence of letters: `c as u32 - increment`, if it is a character
that is not past `end`. -/
def charBelow («end» : Char) (increment : Nat) (c : Char) : Except Stop (Option Char) :=
  if c.toNat < increment then .error .overflow
  else .ok ((charFromU32 (c.toNat - increment)).filter fun next => «end» ≤ next)

def numberText (n : Int) : List Char := (toString n).toList

/-- The iterator of a sequence of numbers (`expand_brace_expr_member`). -/
def numbers (fuel : Nat) (start «end» : Int64) (increment : Nat) :
    Except Stop (List (List Char)) :=
  if start ≤ «end» then .ok ((stepBy start.toInt «end».toInt increment).map numberText)
  else
    (successors (numberBelow «end».toInt (asI64 increment)) fuel start.toInt).map
      (List.map numberText)

/-- The iterator of a sequence of letters, whose increment is cut to 32 bits on the way down. -/
def chars (fuel : Nat) (start «end» : Letter) (increment : Nat) :
    Except Stop (List (List Char)) :=
  if start.char ≤ «end».char then
    .ok ((stepBy start.code «end».code increment).map fun n => [Char.ofNat n.toNat])
  else
    (successors (charBelow «end».char (increment % 2 ^ 32)) fuel start.char).map
      (List.map fun c => [c])

def Sequence.elements (fuel : Nat) : Sequence → Except Stop (List (List Char))
  | numbers start «end» increment => Braces.numbers fuel start «end» (stepOf increment)
  | chars start «end» increment => Braces.chars fuel start «end» (stepOf increment)

/-! ## Members before they are collected -/

/-- A member before it is collected: a sequence, or strings that have been made already. -/
inductive Lazy
  | sequence (s : Sequence)
  | ready (strings : List (List Char))

def Lazy.count : Lazy → Nat
  | sequence (.numbers start «end» increment) =>
    sequenceLen start.toInt «end».toInt (stepOf increment)
  | sequence (.chars start «end» increment) => sequenceLen start.code «end».code (stepOf increment)
  | ready strings => strings.length

def Lazy.held : Lazy → Nat
  | sequence _ => 0
  | ready strings => strings.length

def countAll (members : List Lazy) : Nat :=
  members.foldl (fun acc l => min (acc + l.count) usizeMax) 0

/-- What an expansion has made: a sequence it has collected, or the strings of one piece. -/
inductive Made
  | sequence (s : Sequence) (elements : List (List Char))
  | held (strings : Nat)

def collectSequence (fuel : Nat) (s : Sequence) : Logged Stop Made (List (List Char)) := do
  let elements ← Logged.lift (s.elements fuel)
  Logged.tell (.sequence s elements)
  pure elements

/-- Collects the members of a piece. -/
def collect (fuel : Nat) : List Lazy → Logged Stop Made (List (List Char))
  | [] => pure []
  | .ready strings :: members => do
    let rest ← collect fuel members
    pure (strings ++ rest)
  | .sequence s :: members => do
    let elements ← collectSequence fuel s
    let rest ← collect fuel members
    pure (elements ++ rest)

/-! ## The expansion -/

/-- `multi_cartesian_product`: the last factor varies fastest. -/
def multiCartesianProduct {α : Type} : List (List α) → List (List α)
  | [] => [[]]
  | xs :: xss => xs.flatMap fun x => (multiCartesianProduct xss).map (x :: ·)

def combine (expansions : List (List (List Char))) : List (List Char) :=
  (multiCartesianProduct expansions).map List.flatten

mutual

/-- The loop of `generate_and_combine_brace_expansions`. -/
def expandPieces (fuel : Nat) :
    Nat → List BraceExpressionOrText → Logged Stop Made (List (List (List Char)))
  | _, [] => pure []
  | runningTotal, piece :: pieces => do
    let members ← expandBraceExprOrText fuel piece
    let count := countAll members
    if count > maxBraceExpansionFields then Logged.throw .tooMuchData
    else
      let runningTotal := min (runningTotal * count) usizeMax
      if runningTotal > maxBraceExpansionFields then Logged.throw .tooMuchData
      else
        let strings ← collect fuel members
        Logged.tell (.held strings.length)
        let rest ← expandPieces fuel runningTotal pieces
        pure (strings :: rest)

def expandBraceExprOrText (fuel : Nat) : BraceExpressionOrText → Logged Stop Made (List Lazy)
  | .expr members => expandMembers fuel 0 members
  | .text s => pure [.ready [s]]

/-- The members of a brace expression in turn, while `held` strings have been made for the members
before. -/
def expandMembers (fuel : Nat) : Nat → List BraceExpressionMember → Logged Stop Made (List Lazy)
  | _, [] => pure []
  | held, member :: members => do
    let l ← expandBraceExprMember fuel member
    Logged.tell (.held (held + l.held))
    let rest ← expandMembers fuel (held + l.held) members
    pure (l :: rest)

def expandBraceExprMember (fuel : Nat) : BraceExpressionMember → Logged Stop Made Lazy
  | .numberSequence start «end» increment =>
    pure (.sequence (.numbers start «end» increment))
  | .charSequence start «end» increment =>
    pure (.sequence (.chars start «end» increment))
  | .child elements => do
    let expansions ← expandPieces fuel 1 elements
    pure (.ready (combine expansions))

end

/-- `generate_and_combine_brace_expansions`. -/
def generateAndCombine (fuel : Nat) (pieces : List BraceExpressionOrText) :
    Logged Stop Made (List (List Char)) := do
  let expansions ← expandPieces fuel 1 pieces
  pure (combine expansions)

end Seahaven.Shell.Braces
