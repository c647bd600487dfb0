import Seahaven.Lib.Peg

/-!
# The grammar of `test`

The arguments are read by the rules for up to four of them, and if these do not take all, by
precedence climbing, as in the grammar of arithmetic: an atom or a prefix operator, then as many
infix operators as bind tightly enough.

1. `oneArgExpr` to `fourArgExpr`: the rules for up to four arguments.
2. `prefixAtom`, `tryInfix`, `infixParse`: the rule for any number of them.
3. `parse`, and `inner_infixStep`: what is inside an expression is shorter.
4. `parse_spells`: the expression is read from all of the arguments.
-/

namespace Seahaven.TestCommand

abbrev Arg := List Char

inductive UnaryPredicate
  | fileExists
  | fileExistsAndIsBlockSpecialFile
  | fileExistsAndIsCharSpecialFile
  | fileExistsAndIsDir
  | fileExistsAndIsRegularFile
  | fileExistsAndIsSetgid
  | fileExistsAndIsSymlink
  | fileExistsAndHasStickyBit
  | fileExistsAndIsFifo
  | fileExistsAndIsReadable
  | fileExistsAndIsNotZeroLength
  | fdIsOpenTerminal
  | fileExistsAndIsSetuid
  | fileExistsAndIsWritable
  | fileExistsAndIsExecutable
  | fileExistsAndOwnedByEffectiveGroupId
  | fileExistsAndModifiedSinceLastRead
  | fileExistsAndOwnedByEffectiveUserId
  | fileExistsAndIsSocket
  | shellOptionEnabled
  | shellVariableIsSetAndAssigned
  | shellVariableIsSetAndNameRef
  | stringHasZeroLength
  | stringHasNonZeroLength
  deriving DecidableEq

/-- The predicates of two arguments that `test` has. -/
inductive BinaryPredicate
  | filesReferToSameDeviceAndInodeNumbers
  | leftFileIsNewerOrExistsWhenRightDoesNot
  | leftFileIsOlderOrDoesNotExistWhenRightDoes
  | stringExactlyMatchesString
  | stringDoesNotExactlyMatchString
  | leftSortsBeforeRight
  | leftSortsAfterRight
  | arithmeticEqualTo
  | arithmeticNotEqualTo
  | arithmeticLessThan
  | arithmeticLessThanOrEqualTo
  | arithmeticGreaterThan
  | arithmeticGreaterThanOrEqualTo
  deriving DecidableEq

inductive TestExpr
  | false
  | literal (s : Arg)
  | and (left right : TestExpr)
  | or (left right : TestExpr)
  | not (e : TestExpr)
  | parenthesized (e : TestExpr)
  | unaryTest (op : UnaryPredicate) (s : Arg)
  | binaryTest (op : BinaryPredicate) (left right : Arg)
  deriving DecidableEq

abbrev Rule := Peg.Rule Arg TestExpr

/-! ## Operators -/

def unaryOp : Arg → Option UnaryPredicate
  | ['-', 'a'] => some .fileExists
  | ['-', 'b'] => some .fileExistsAndIsBlockSpecialFile
  | ['-', 'c'] => some .fileExistsAndIsCharSpecialFile
  | ['-', 'd'] => some .fileExistsAndIsDir
  | ['-', 'e'] => some .fileExists
  | ['-', 'f'] => some .fileExistsAndIsRegularFile
  | ['-', 'g'] => some .fileExistsAndIsSetgid
  | ['-', 'h'] => some .fileExistsAndIsSymlink
  | ['-', 'k'] => some .fileExistsAndHasStickyBit
  | ['-', 'n'] => some .stringHasNonZeroLength
  | ['-', 'o'] => some .shellOptionEnabled
  | ['-', 'p'] => some .fileExistsAndIsFifo
  | ['-', 'r'] => some .fileExistsAndIsReadable
  | ['-', 's'] => some .fileExistsAndIsNotZeroLength
  | ['-', 't'] => some .fdIsOpenTerminal
  | ['-', 'u'] => some .fileExistsAndIsSetuid
  | ['-', 'v'] => some .shellVariableIsSetAndAssigned
  | ['-', 'w'] => some .fileExistsAndIsWritable
  | ['-', 'x'] => some .fileExistsAndIsExecutable
  | ['-', 'z'] => some .stringHasZeroLength
  | ['-', 'G'] => some .fileExistsAndOwnedByEffectiveGroupId
  | ['-', 'L'] => some .fileExistsAndIsSymlink
  | ['-', 'N'] => some .fileExistsAndModifiedSinceLastRead
  | ['-', 'O'] => some .fileExistsAndOwnedByEffectiveUserId
  | ['-', 'R'] => some .shellVariableIsSetAndNameRef
  | ['-', 'S'] => some .fileExistsAndIsSocket
  | _ => none

def binaryOp : Arg → Option BinaryPredicate
  | ['=', '='] => some .stringExactlyMatchesString
  | ['-', 'e', 'f'] => some .filesReferToSameDeviceAndInodeNumbers
  | ['-', 'e', 'q'] => some .arithmeticEqualTo
  | ['-', 'g', 'e'] => some .arithmeticGreaterThanOrEqualTo
  | ['-', 'g', 't'] => some .arithmeticGreaterThan
  | ['-', 'l', 'e'] => some .arithmeticLessThanOrEqualTo
  | ['-', 'l', 't'] => some .arithmeticLessThan
  | ['-', 'n', 'e'] => some .arithmeticNotEqualTo
  | ['-', 'n', 't'] => some .leftFileIsNewerOrExistsWhenRightDoesNot
  | ['-', 'o', 't'] => some .leftFileIsOlderOrDoesNotExistWhenRightDoes
  | ['='] => some .stringExactlyMatchesString
  | ['!', '='] => some .stringDoesNotExactlyMatchString
  | ['<'] => some .leftSortsBeforeRight
  | ['>'] => some .leftSortsAfterRight
  | _ => none

/-! ## Alternatives -/

def unaryTest : Rule
  | op :: operand :: t => (unaryOp op).map fun p => (.unaryTest p operand, t)
  | _ => none

def binaryTest : Rule
  | left :: op :: right :: t => (binaryOp op).map fun p => (.binaryTest p left right, t)
  | _ => none

def joinedLiterals (text : Arg) (node : TestExpr → TestExpr → TestExpr) : Rule
  | left :: op :: right :: t =>
    if op = text then some (node (.literal left) (.literal right), t) else none
  | _ => none

/-- A `!` before what a rule reads. -/
def negated (rule : Rule) : Rule
  | op :: t => if op = ['!'] then (rule t).map fun (e, u) => (.not e, u) else none
  | [] => none

/-- What a rule reads, in parentheses. -/
def bracketed (rule : Rule) : Rule
  | op :: t =>
    if op = ['('] then
      match rule t with
      | some (e, close :: u) => if close = [')'] then some (e, u) else none
      | _ => none
    else none
  | [] => none

theorem negated_cons (rule : Rule) (op : Arg) (t : List Arg) : negated rule (op :: t) =
    if op = ['!'] then (rule t).map fun (e, u) => (.not e, u) else none := rfl

theorem bracketed_cons (rule : Rule) (op : Arg) (t : List Arg) : bracketed rule (op :: t) =
    if op = ['('] then
      match rule t with
      | some (e, close :: u) => if close = [')'] then some (e, u) else none
      | _ => none
    else none := rfl

/-! ## Up to four arguments -/

def oneArgExpr : Rule
  | s :: t => some (.literal s, t)
  | [] => none

def twoArgExpr : Rule := fun s => (negated oneArgExpr s).or (unaryTest s)

def threeArgExpr : Rule := fun s =>
  (joinedLiterals ['-', 'a'] .and s).or <|
    (joinedLiterals ['-', 'o'] .or s).or <|
    (binaryTest s).or <|
    (negated twoArgExpr s).or <|
    bracketed oneArgExpr s

def fourArgExpr : Rule := negated threeArgExpr

/-! ## Any number of arguments -/

section

-- the rule for what is inside an alternative, by the precedence asked for
variable (inner : ℕ → Rule)

/-- The atoms and the prefix operator. -/
def prefixAtom : Rule := fun s =>
  ((bracketed (inner 0) s).map fun (e, t) => (TestExpr.parenthesized e, t)).or <|
    (negated (inner 3) s).or <|
    (binaryTest s).or <|
    (unaryTest s).or <|
    oneArgExpr s

def infixOperator (text : Arg) (node : TestExpr → TestExpr → TestExpr) (x : TestExpr) : Rule
  | op :: t => if op = text then (inner 1 t).map fun (y, rest) => (node x y, rest) else none
  | [] => none

def tryInfix (minPrec : ℕ) (x : TestExpr) : Rule := fun s =>
  if minPrec ≤ 0 then
    (infixOperator inner ['-', 'a'] .and x s).or (infixOperator inner ['-', 'o'] .or x s)
  else none

/-- The infix operators behind an expression, at most so many. -/
def climb (minPrec : ℕ) : ℕ → TestExpr → List Arg → TestExpr × List Arg
  | 0, x, s => (x, s)
  | n + 1, x, s =>
    match tryInfix inner minPrec x s with
    | some (y, t) => climb minPrec n y t
    | none => (x, s)

def infixStep (minPrec : ℕ) : Rule := fun s =>
  (prefixAtom inner s).map fun (x, t) => climb inner minPrec t.length x t

end

/-- `expression` from a precedence on, at most so deep. -/
def infixParse : ℕ → ℕ → Rule := Peg.nested infixStep

def atEnd : Option (TestExpr × List Arg) → Option TestExpr
  | some (e, []) => some e
  | _ => none

/-- `parse`, the rule `full_expression`. -/
def parse (input : List Arg) : Option TestExpr :=
  if input = [] then some .false
  else
    (atEnd (oneArgExpr input)).or <|
      (atEnd (twoArgExpr input)).or <|
      (atEnd (threeArgExpr input)).or <|
      (atEnd (fourArgExpr input)).or <|
      atEnd (infixParse (input.length + 1) 0 input)

/-! ## Connectives -/

inductive Connective
  | and
  | or
  deriving DecidableEq

def Connective.node : Connective → TestExpr → TestExpr → TestExpr
  | .and => .and
  | .or => .or

def connective (op : Arg) : Option Connective :=
  if op = ['-', 'a'] then some .and else if op = ['-', 'o'] then some .or else none

def connected (rule : Rule) : Peg.Rule Arg (Connective × TestExpr)
  | op :: t => (connective op).bind fun c => (rule t).map fun (y, rest) => ((c, y), rest)
  | [] => none

def chained (x : TestExpr) (more : List (Connective × TestExpr)) : TestExpr :=
  more.foldl (fun e c => c.1.node e c.2) x

section Climb

variable (inner : ℕ → Rule)

theorem tryInfix_eq (x : TestExpr) (s : List Arg) : tryInfix inner 0 x s =
    (connected (inner 1) s).map fun (c, t) => (c.1.node x c.2, t) := by
  unfold tryInfix
  rw [if_pos (Nat.le_refl 0)]
  cases s with
  | nil => rfl
  | cons op t =>
    unfold infixOperator connected connective
    dsimp only
    by_cases hand : op = ['-', 'a']
    · have hor : op ≠ ['-', 'o'] := by
        rintro rfl
        exact absurd hand (by decide)
      rw [if_pos hand, if_neg hor, if_pos hand, Option.or_none, Option.bind_some, Option.map_map]
      rfl
    · rw [if_neg hand, if_neg hand, Option.none_or]
      by_cases hor : op = ['-', 'o']
      · rw [if_pos hor, if_pos hor, Option.bind_some, Option.map_map]
        rfl
      · rw [if_neg hor, if_neg hor]
        rfl

theorem climb_eq (n : ℕ) (x : TestExpr) (s : List Arg) : climb inner 0 n x s =
    (chained x (Peg.many (connected (inner 1)) n s).1,
      (Peg.many (connected (inner 1)) n s).2) := by
  induction n generalizing x s with
  | zero => rfl
  | succ n ih =>
    rw [climb, tryInfix_eq, Peg.many]
    cases connected (inner 1) s with
    | none => rfl
    | some r => exact ih _ _

theorem climb_of_pos {minPrec : ℕ} (h : 0 < minPrec) (n : ℕ) (x : TestExpr) (s : List Arg) :
    climb inner minPrec n x s = (x, s) := by
  cases n with
  | zero => rfl
  | succ n =>
    rw [climb, tryInfix, if_neg (Nat.not_le.2 h)]

theorem infixStep_zero (s : List Arg) : infixStep inner 0 s =
    (prefixAtom inner s).map fun (x, t) =>
      (chained x (Peg.many (connected (inner 1)) t.length t).1,
        (Peg.many (connected (inner 1)) t.length t).2) := by
  unfold infixStep
  congr 1
  funext r
  exact climb_eq inner _ _ _

theorem infixStep_of_pos {minPrec : ℕ} (h : 0 < minPrec) (s : List Arg) :
    infixStep inner minPrec s = prefixAtom inner s := by
  unfold infixStep
  have hclimb : (fun r : TestExpr × List Arg => climb inner minPrec r.2.length r.1 r.2) = id := by
    funext r
    exact climb_of_pos inner h _ _ _
  exact (congrArg (fun f => (prefixAtom inner s).map f) hclimb).trans Option.map_id'

end Climb

/-! ## What is inside is shorter -/

open Peg (Shortens)

theorem shortens_unaryTest : Shortens unaryTest := by
  rintro (_ | ⟨op, _ | ⟨operand, t⟩⟩) e u h
  · cases h
  · cases h
  · obtain ⟨_, -, hp⟩ := Option.map_eq_some_iff.1 h
    cases hp
    exact Nat.lt_add_of_pos_right (by decide : 0 < 2)

theorem shortens_binaryTest : Shortens binaryTest := by
  rintro (_ | ⟨left, _ | ⟨op, _ | ⟨right, t⟩⟩⟩) e u h
  · cases h
  · cases h
  · cases h
  · obtain ⟨_, -, hp⟩ := Option.map_eq_some_iff.1 h
    cases hp
    exact Nat.lt_add_of_pos_right (by decide : 0 < 3)

theorem shortens_oneArgExpr : Shortens oneArgExpr := by
  rintro (_ | ⟨s, t⟩) e u h
  · cases h
  · cases h
    simp

theorem shortens_negated {rule : Rule} (hrule : Shortens rule) : Shortens (negated rule) := by
  rintro (_ | ⟨op, t⟩) e u h
  · cases h
  · rw [negated_cons] at h
    split_ifs at h
    obtain ⟨⟨e', u'⟩, hr, hp⟩ := Option.map_eq_some_iff.1 h
    cases hp
    exact Nat.lt_succ_of_lt (hrule t e' u hr)

theorem shortens_bracketed {rule : Rule} (hrule : Shortens rule) :
    Shortens (bracketed rule) := by
  rintro (_ | ⟨op, t⟩) e u h
  · cases h
  · rw [bracketed_cons] at h
    split_ifs at h
    split at h
    · rename_i e' close u' hr
      split_ifs at h
      cases h
      have hlt := hrule t e _ hr
      rw [List.length_cons] at hlt ⊢
      omega
    · cases h

theorem shortens_connected {rule : Rule} (hrule : Shortens rule) :
    Shortens (connected rule) := by
  rintro (_ | ⟨op, t⟩) c u h
  · cases h
  · obtain ⟨c', -, h⟩ := Option.bind_eq_some_iff.1 h
    obtain ⟨⟨e, u'⟩, hr, heq⟩ := Option.map_eq_some_iff.1 h
    cases heq
    exact Nat.lt_succ_of_lt (hrule t e u hr)

theorem shortens_prefixAtom {inner : ℕ → Rule} (h : ∀ i, Shortens (inner i)) :
    Shortens (prefixAtom inner) :=
  ((shortens_bracketed (h 0)).map _).or <| (shortens_negated (h 3)).or <|
    shortens_binaryTest.or <| shortens_unaryTest.or shortens_oneArgExpr

theorem shortens_many {α β : Type} {γ : Type} {p : Peg.Rule α β} {q : Peg.Rule α γ}
    (hp : Shortens p) (hq : Shortens q) (f : β → List γ → β) :
    Shortens fun s => (p s).map fun (x, t) =>
      (f x (Peg.many q t.length t).1, (Peg.many q t.length t).2) := by
  intro s b t h
  obtain ⟨⟨x, u⟩, hr, heq⟩ := Option.map_eq_some_iff.1 h
  cases heq
  exact Nat.lt_of_le_of_lt (Peg.many_length_le hq _ _) (hp s x u hr)

theorem shortens_infixStep {inner : ℕ → Rule} (h : ∀ i, Shortens (inner i)) (minPrec : ℕ) :
    Shortens (infixStep inner minPrec) := by
  cases minPrec with
  | zero =>
    rw [show infixStep inner 0 = _ from funext (infixStep_zero inner)]
    exact shortens_many (shortens_prefixAtom h) (shortens_connected (h 1)) chained
  | succ n =>
    rw [show infixStep inner (n + 1) = _ from funext (infixStep_of_pos inner (Nat.succ_pos n))]
    exact shortens_prefixAtom h

section Congr

variable {p q : ℕ → Rule}

theorem prefixAtom_congr {s : List Arg} (h : ∀ i t, t.length < s.length → p i t = q i t) :
    prefixAtom p s = prefixAtom q s := by
  unfold prefixAtom
  cases s with
  | nil => rfl
  | cons op t =>
    rw [bracketed_cons, bracketed_cons, negated_cons, negated_cons, h 0 t (Nat.lt_succ_self _),
      h 3 t (Nat.lt_succ_self _)]

theorem connected_congr {rule rule' : Rule} {s : List Arg}
    (h : ∀ t, t.length < s.length → rule t = rule' t) :
    connected rule s = connected rule' s := by
  cases s with
  | nil => rfl
  | cons op t =>
    unfold connected
    dsimp only
    rw [h t (Nat.lt_succ_self _)]

theorem map_many_congr {α β γ δ : Type} {p : Peg.Rule α β} {q q' : Peg.Rule α γ}
    {f : β → List γ → δ} {s : List α} (hp : Shortens p) (hq' : Shortens q')
    (h : ∀ u, u.length < s.length → q u = q' u) :
    ((p s).map fun (x, t) => (f x (Peg.many q t.length t).1, (Peg.many q t.length t).2)) =
      (p s).map fun (x, t) => (f x (Peg.many q' t.length t).1, (Peg.many q' t.length t).2) := by
  cases hr : p s with
  | none => rfl
  | some r =>
    have hlt := hp s r.1 r.2 hr
    have hmany : Peg.many q r.2.length r.2 = Peg.many q' r.2.length r.2 :=
      Peg.many_congr hq' (fun u hu => h u (Nat.lt_of_le_of_lt hu hlt)) r.2.length
    show some (f r.1 (Peg.many q r.2.length r.2).1, (Peg.many q r.2.length r.2).2) = _
    rw [hmany]
    rfl

theorem inner_infixStep : Peg.Inner infixStep where
  shortens _ h := shortens_infixStep h
  congr p q _ hq s h i := by
    have hatom : prefixAtom p s = prefixAtom q s := prefixAtom_congr h
    cases i with
    | succ n =>
      rw [infixStep_of_pos p (Nat.succ_pos n), infixStep_of_pos q (Nat.succ_pos n), hatom]
    | zero =>
      rw [infixStep_zero, infixStep_zero, hatom]
      exact map_many_congr (shortens_prefixAtom hq) (shortens_connected (hq 1))
        fun u hu => connected_congr fun v hv => h 1 v (Nat.lt_trans hv hu)

end Congr

/-- **Enough depth.** -/
theorem infixParse_eq {n m : ℕ} {s : List Arg} (hn : s.length < n) (hm : s.length < m)
    (minPrec : ℕ) : infixParse n minPrec s = infixParse m minPrec s :=
  inner_infixStep.nested_eq hn hm minPrec

/-! ## The grammar behind the parser -/

/-- What is read of many arguments. -/
inductive Part
  | expression
  | operand

/-- Arguments that an expression can be read from. Both connectives join an operand to all that
stands to the left of them. -/
inductive Spells : Part → TestExpr → List Arg → Prop
  | literal (s : Arg) : Spells .operand (.literal s) [s]
  | unaryTest {op : Arg} {p : UnaryPredicate} (h : unaryOp op = some p) (s : Arg) :
    Spells .operand (.unaryTest p s) [op, s]
  | binaryTest {op : Arg} {p : BinaryPredicate} (h : binaryOp op = some p) (left right : Arg) :
    Spells .operand (.binaryTest p left right) [left, op, right]
  | not {e : TestExpr} {s : List Arg} (h : Spells .operand e s) :
    Spells .operand (.not e) (['!'] :: s)
  | parenthesized {e : TestExpr} {s : List Arg} (h : Spells .expression e s) :
    Spells .operand (.parenthesized e) (['('] :: (s ++ [[')']]))
  | expression {e : TestExpr} {s : List Arg} (h : Spells .operand e s) : Spells .expression e s
  | joined {op : Arg} {c : Connective} {e f : TestExpr} {s t : List Arg}
    (hop : connective op = some c) (h : Spells .expression e s) (h' : Spells .operand f t) :
    Spells .expression (c.node e f) (s ++ op :: t)

def SpellsThree (e : TestExpr) (s : List Arg) : Prop :=
  s.length = 3 ∧ (Spells .expression e s ∨ ∃ x, s = [['('], x, [')']] ∧ e = .literal x)

def Sound (Q : TestExpr → List Arg → Prop) (rule : Rule) : Prop :=
  ∀ s e t, rule s = some (e, t) → ∃ u, s = u ++ t ∧ Q e u

section Sound

variable {Q Q' : TestExpr → List Arg → Prop} {rule rule' : Rule}

theorem Sound.imp (h : Sound Q rule) (hQ : ∀ e u, Q e u → Q' e u) : Sound Q' rule := by
  intro s e t hr
  obtain ⟨u, hs, hu⟩ := h s e t hr
  exact ⟨u, hs, hQ e u hu⟩

theorem Sound.or (h : Sound Q rule) (h' : Sound Q rule') :
    Sound Q fun s => (rule s).or (rule' s) := by
  intro s e t hr
  rcases Option.or_eq_some_iff.1 hr with hr | ⟨-, hr⟩
  · exact h s e t hr
  · exact h' s e t hr

theorem Sound.negated (h : Sound Q rule) (hQ : ∀ e u, Q e u → Q' (.not e) (['!'] :: u)) :
    Sound Q' (negated rule) := by
  rintro (_ | ⟨op, s⟩) e t hr
  · cases hr
  · rw [negated_cons] at hr
    split_ifs at hr with hop
    obtain ⟨⟨e', t'⟩, hr, heq⟩ := Option.map_eq_some_iff.1 hr
    cases heq
    obtain ⟨u, rfl, hu⟩ := h s e' t hr
    exact ⟨op :: u, rfl, hop ▸ hQ e' u hu⟩

theorem Sound.bracketed (h : Sound Q rule) :
    Sound (fun e u => ∃ v, Q e v ∧ u = ['('] :: (v ++ [[')']])) (bracketed rule) := by
  rintro (_ | ⟨op, s⟩) e t hr
  · cases hr
  · rw [bracketed_cons] at hr
    split_ifs at hr with hop
    split at hr
    · rename_i e' close t' hinside
      split_ifs at hr with hclose
      cases hr
      obtain ⟨u, rfl, hu⟩ := h s _ _ hinside
      rw [hop, hclose]
      exact ⟨['('] :: (u ++ [[')']]), by simp, u, hu, rfl⟩
    · cases hr

theorem sound_oneArgExpr : Sound (fun e u => ∃ s, e = .literal s ∧ u = [s]) oneArgExpr := by
  rintro (_ | ⟨s, t⟩) e u h
  · cases h
  · cases h
    exact ⟨[s], rfl, s, rfl, rfl⟩

theorem sound_literal : Sound (Spells .operand) oneArgExpr := by
  refine sound_oneArgExpr.imp ?_
  rintro e u ⟨s, rfl, rfl⟩
  exact .literal s

theorem sound_unaryTest : Sound (fun e u => Spells .operand e u ∧ u.length = 2) unaryTest := by
  rintro (_ | ⟨op, _ | ⟨s, t⟩⟩) e u h
  · cases h
  · cases h
  · obtain ⟨p, hop, hp⟩ := Option.map_eq_some_iff.1 h
    cases hp
    exact ⟨[op, s], rfl, .unaryTest hop s, rfl⟩

theorem sound_binaryTest : Sound (fun e u => Spells .operand e u ∧ u.length = 3) binaryTest := by
  rintro (_ | ⟨left, _ | ⟨op, _ | ⟨right, t⟩⟩⟩) e u h
  · cases h
  · cases h
  · cases h
  · obtain ⟨p, hop, hp⟩ := Option.map_eq_some_iff.1 h
    cases hp
    exact ⟨[left, op, right], rfl, .binaryTest hop left right, rfl⟩

theorem sound_joinedLiterals {text : Arg} {c : Connective} (htext : connective text = some c) :
    Sound SpellsThree (joinedLiterals text c.node) := by
  rintro (_ | ⟨left, _ | ⟨op, _ | ⟨right, t⟩⟩⟩) e u h
  · cases h
  · cases h
  · cases h
  · unfold joinedLiterals at h
    dsimp only at h
    split_ifs at h with hop
    cases h
    have hspells : Spells .expression (c.node (.literal left) (.literal right))
        ([left] ++ op :: [right]) :=
      .joined (hop ▸ htext) (.expression (.literal left)) (.literal right)
    exact ⟨[left, op, right], rfl, rfl, .inl hspells⟩

theorem sound_twoArgExpr : Sound (fun e u => Spells .operand e u ∧ u.length = 2) twoArgExpr := by
  refine Sound.or (sound_oneArgExpr.negated ?_) sound_unaryTest
  rintro e u ⟨s, rfl, rfl⟩
  exact ⟨.not (.literal s), rfl⟩

theorem sound_threeArgExpr : Sound SpellsThree threeArgExpr := by
  have htests : Sound SpellsThree binaryTest :=
    sound_binaryTest.imp fun e u h => ⟨h.2, .inl (.expression h.1)⟩
  have hnot : Sound SpellsThree (negated twoArgExpr) :=
    sound_twoArgExpr.negated fun e u h =>
      ⟨congrArg (· + 1) h.2, .inl (.expression (.not h.1))⟩
  have hgroup : Sound SpellsThree (bracketed oneArgExpr) := by
    refine sound_oneArgExpr.bracketed.imp ?_
    rintro e u ⟨v, ⟨s, rfl, rfl⟩, rfl⟩
    exact ⟨rfl, .inr ⟨s, rfl, rfl⟩⟩
  have hand : Sound SpellsThree (joinedLiterals ['-', 'a'] .and) :=
    @sound_joinedLiterals _ .and rfl
  have hor : Sound SpellsThree (joinedLiterals ['-', 'o'] .or) :=
    @sound_joinedLiterals _ .or rfl
  exact hand.or (hor.or (htests.or (hnot.or hgroup)))

theorem spells_chained (hrule : Sound (Spells .operand) rule) {t rest : List Arg}
    {more : List (Connective × TestExpr)} (hreads : Peg.Reads (connected rule) t more rest) :
    ∀ {e : TestExpr} {u : List Arg}, Spells .expression e u →
      ∃ v, u ++ t = v ++ rest ∧ Spells .expression (chained e more) v := by
  induction hreads with
  | done _ => exact fun h => ⟨_, rfl, h⟩
  | @more t t' rest c more hstep _ _ ih =>
    intro e u h
    obtain ⟨c, f⟩ := c
    cases t with
    | nil => cases hstep
    | cons op t =>
      obtain ⟨c', hop, hr⟩ := Option.bind_eq_some_iff.1 hstep
      obtain ⟨⟨f', t''⟩, hr, heq⟩ := Option.map_eq_some_iff.1 hr
      cases heq
      obtain ⟨w, rfl, hw⟩ := hrule t f t' hr
      obtain ⟨v, hv, hspells⟩ := ih (.joined hop h hw)
      exact ⟨v, Eq.trans (by simp) hv, hspells⟩

end Sound

def partFrom : ℕ → Part
  | 0 => .expression
  | _ + 1 => .operand

theorem sound_prefixAtom {inner : ℕ → Rule} (h : ∀ i, Sound (Spells (partFrom i)) (inner i)) :
    Sound (Spells .operand) (prefixAtom inner) := by
  have hgroup : Sound (Spells .operand) fun s =>
      (bracketed (inner 0) s).map fun (e, t) => (TestExpr.parenthesized e, t) := by
    intro s e t hr
    obtain ⟨⟨e', t'⟩, hr, heq⟩ := Option.map_eq_some_iff.1 hr
    cases heq
    obtain ⟨u, rfl, v, hv, rfl⟩ := (h 0).bracketed s e' t hr
    exact ⟨_, rfl, .parenthesized hv⟩
  have hnot : Sound (Spells .operand) (negated (inner 3)) := (h 3).negated fun _ _ => .not
  exact hgroup.or <| hnot.or <| (sound_binaryTest.imp fun _ _ h => h.1).or <|
    (sound_unaryTest.imp fun _ _ h => h.1).or sound_literal

theorem sound_infixParse (n minPrec : ℕ) :
    Sound (Spells (partFrom minPrec)) (infixParse n minPrec) := by
  induction n generalizing minPrec with
  | zero => exact fun _ _ _ => nofun
  | succ n ih =>
    have hatom := sound_prefixAtom ih
    show Sound _ (infixStep (infixParse n) minPrec)
    cases minPrec with
    | succ m =>
      rw [show infixStep (infixParse n) (m + 1) = _ from
        funext (infixStep_of_pos _ (Nat.succ_pos m))]
      exact hatom
    | zero =>
      intro s e t h
      rw [infixStep_zero] at h
      obtain ⟨⟨x, t'⟩, hx, heq⟩ := Option.map_eq_some_iff.1 h
      cases heq
      obtain ⟨u, rfl, hu⟩ := hatom s x t' hx
      exact spells_chained (ih 1)
        (Peg.reads_many (shortens_connected (inner_infixStep.nested_shortens n 1))
          (Nat.le_refl _)) (.expression hu)

theorem Sound.atEnd {Q : TestExpr → List Arg → Prop} {rule : Rule} (h : Sound Q rule)
    {args : List Arg} {e : TestExpr} (hr : atEnd (rule args) = some e) : Q e args := by
  cases hrule : rule args with
  | none =>
    rw [hrule] at hr
    cases hr
  | some r =>
    obtain ⟨e', t⟩ := r
    rw [hrule] at hr
    cases t with
    | cons => cases hr
    | nil =>
      cases hr
      obtain ⟨u, rfl, hu⟩ := h args e [] hrule
      rwa [List.append_nil]

/-- **Readings.** What the parser makes of arguments is read from all of them in their order, with
`-a` and `-o` alike joining to the left, unless they are one in parentheses, or a `!` before three
that it negates together. -/
theorem parse_spells {args : List Arg} {e : TestExpr} (hargs : args ≠ [])
    (h : parse args = some e) : Spells .expression e args ∨ SpellsThree e args ∨
      ∃ s f, args = ['!'] :: s ∧ e = .not f ∧ SpellsThree f s := by
  unfold parse at h
  rw [if_neg hargs] at h
  rcases Option.or_eq_some_iff.1 h with h | ⟨-, h⟩
  · exact .inl (.expression (sound_literal.atEnd h))
  rcases Option.or_eq_some_iff.1 h with h | ⟨-, h⟩
  · exact .inl (.expression (sound_twoArgExpr.atEnd h).1)
  rcases Option.or_eq_some_iff.1 h with h | ⟨-, h⟩
  · exact .inr (.inl (sound_threeArgExpr.atEnd h))
  rcases Option.or_eq_some_iff.1 h with h | ⟨-, h⟩
  · have hfour : Sound (fun e u => ∃ s f, u = ['!'] :: s ∧ e = .not f ∧ SpellsThree f s)
        fourArgExpr := sound_threeArgExpr.negated fun f s hs => ⟨s, f, rfl, rfl, hs⟩
    exact .inr (.inr (hfour.atEnd h))
  · exact .inl ((sound_infixParse _ 0).atEnd h)

/-- `! x -o y`, where all three are negated. -/
theorem parse_spells_not :
    Spells .expression (.not (.or (.literal ['x']) (.literal ['y'])))
        [['!'], ['x'], ['-', 'o'], ['y']] ∨
      SpellsThree (.not (.or (.literal ['x']) (.literal ['y'])))
        [['!'], ['x'], ['-', 'o'], ['y']] ∨
      ∃ s f, [['!'], ['x'], ['-', 'o'], ['y']] = ['!'] :: s ∧
        TestExpr.not (.or (.literal ['x']) (.literal ['y'])) = .not f ∧ SpellsThree f s :=
  parse_spells (by decide) (by decide)

end Seahaven.TestCommand
