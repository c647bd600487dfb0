import Seahaven.Parser.TestCommand

/-!
# The rules of `test`

Up to four arguments are told apart by their count, and more of them are read by precedence: an
operand is a group in parentheses, a negated operand, a test, or else an argument as it is; `-a`
joins operands, and `-o` joins what `-a` has joined.

1. `rules`: the expression that the rules assign.
2. `beside`: the parser and the rules take the same arguments, and make the same of them if no `-a`
   stands to the right of a `-o` (`andsFirst`).
3. `parse_group`: a group of four arguments; `parse_eq_rules_iff`.
-/

namespace Seahaven.TestCommand

/-! ## The rules -/

def twoArguments (op s : Arg) : Option TestExpr :=
  if op = ['!'] then some (.not (.literal s)) else (unaryOp op).map fun p => .unaryTest p s

/-- A binary primary in the middle comes before a `!`, and before parentheses. -/
def threeArguments (left op right : Arg) : Option TestExpr :=
  match connective op, binaryOp op with
  | some c, _ => some (c.node (.literal left) (.literal right))
  | none, some p => some (.binaryTest p left right)
  | none, none =>
    if left = ['!'] then (twoArguments op right).map .not
    else if left = ['('] ∧ right = [')'] then some (.literal op)
    else none

/-- Operands that are joined, with what `-o` joins before the last of its groups: `-a` binds tighter
than `-o`, and both associate to the left. -/
def joined : Option TestExpr → TestExpr → List (Connective × TestExpr) → TestExpr
  | none, group, [] => group
  | some left, group, [] => .or left group
  | left, group, (.and, e) :: more => joined left (.and group e) more
  | none, group, (.or, e) :: more => joined (some group) e more
  | some left, group, (.or, e) :: more => joined (some (.or left group)) e more

section

variable (inner : Part → Rule)

/-- An operand, by the first that applies: a group, a negation, a test, an argument. -/
def operand : Rule := fun s =>
  ((bracketed (inner .expression) s).map fun (e, t) => (TestExpr.parenthesized e, t)).or <|
    (negated (inner .operand) s).or <|
    (binaryTest s).or <|
    (unaryTest s).or <|
    oneArgExpr s

def readStep : Part → Rule
  | .operand => operand inner
  | .expression => fun s => (operand inner s).map fun (x, t) =>
    (joined none x (Peg.many (connected (inner .operand)) t.length t).1,
      (Peg.many (connected (inner .operand)) t.length t).2)

end

def read : ℕ → Part → Rule := Peg.nested readStep

def byPrecedence (args : List Arg) : Option TestExpr :=
  atEnd (read (args.length + 1) .expression args)

/-- The expression that arguments stand for. -/
def rules : List Arg → Option TestExpr
  | [] => some .false
  | [s] => some (.literal s)
  | [op, s] => twoArguments op s
  | [left, op, right] => threeArguments left op right
  | [a, b, c, d] =>
    if a = ['!'] then (threeArguments b c d).map .not
    else if a = ['('] ∧ d = [')'] then (twoArguments b c).map .parenthesized
    else byPrecedence [a, b, c, d]
  | args => byPrecedence args

/-! ## What is inside is shorter -/

theorem shortens_operand {inner : Part → Rule} (h : ∀ i, Peg.Shortens (inner i)) :
    Peg.Shortens (operand inner) :=
  ((shortens_bracketed (h .expression)).map _).or <| (shortens_negated (h .operand)).or <|
    shortens_binaryTest.or <| shortens_unaryTest.or shortens_oneArgExpr

theorem shortens_readStep {inner : Part → Rule} (h : ∀ i, Peg.Shortens (inner i)) (i : Part) :
    Peg.Shortens (readStep inner i) := by
  cases i with
  | operand => exact shortens_operand h
  | expression => exact shortens_many (shortens_operand h) (shortens_connected (h .operand)) _

theorem operand_congr {p q : Part → Rule} {s : List Arg}
    (h : ∀ i t, t.length < s.length → p i t = q i t) : operand p s = operand q s := by
  unfold operand
  cases s with
  | nil => rfl
  | cons op t =>
    rw [bracketed_cons, bracketed_cons, negated_cons, negated_cons,
      h .expression t (Nat.lt_succ_self _), h .operand t (Nat.lt_succ_self _)]

theorem inner_readStep : Peg.Inner readStep where
  shortens _ h := shortens_readStep h
  congr p q _ hq s h i := by
    have hoperand : operand p s = operand q s := operand_congr h
    cases i with
    | operand => exact hoperand
    | expression =>
      unfold readStep
      dsimp only
      rw [hoperand]
      exact map_many_congr (shortens_operand hq) (shortens_connected (hq .operand))
        fun u hu => connected_congr fun v hv => h .operand v (Nat.lt_trans hv hu)

theorem read_eq {n m : ℕ} {s : List Arg} (hn : s.length < n) (hm : s.length < m) (i : Part) :
    read n i s = read m i s :=
  inner_readStep.nested_eq hn hm i

variable {args : List Arg}

/-! ## Precedence -/

def TestExpr.isAnd : TestExpr → Bool
  | .and _ _ => true
  | _ => Bool.false

/-- No `-a` stands to the right of a `-o`, unless in parentheses of its own. -/
def TestExpr.andsFirst : TestExpr → Bool
  | .and left right => left.andsFirst && right.andsFirst
  | .or left right => left.andsFirst && right.andsFirst && !right.isAnd
  | .not e => e.andsFirst
  | .parenthesized e => e.andsFirst
  | _ => true

/-- What the parser made is what the rules assign just if no `-a` there is right of a
`-o`. -/
def Agree (e e' : TestExpr) : Prop := e = e' ↔ e'.andsFirst = true

/-- The same, of operands. -/
structure OperandAgree (e e' : TestExpr) : Prop where
  agree : Agree e e'
  notAnd : e'.isAnd = Bool.false

theorem agree_and {e e' f f' : TestExpr} (h : Agree e e') (hf : Agree f f') :
    Agree (.and e f) (.and e' f') := by
  show (TestExpr.and e f = .and e' f') ↔ (e'.andsFirst && f'.andsFirst) = true
  rw [TestExpr.and.injEq, Bool.and_eq_true]
  exact and_congr h hf

theorem agree_or {e e' f f' : TestExpr} (h : Agree e e') (hf : OperandAgree f f') :
    Agree (.or e f) (.or e' f') := by
  show (TestExpr.or e f = .or e' f') ↔
    (e'.andsFirst && f'.andsFirst && !f'.isAnd) = true
  rw [TestExpr.or.injEq, hf.notAnd, Bool.not_false, Bool.and_true, Bool.and_eq_true]
  exact and_congr h hf.agree

theorem agree_and_or (e f left right f' : TestExpr) :
    Agree (.and e f) (.or left (.and right f')) := by
  refine iff_of_false (fun h => nomatch h) ?_
  show ¬(left.andsFirst && TestExpr.andsFirst _ && !TestExpr.isAnd _) = true
  rw [TestExpr.isAnd, Bool.not_true, Bool.and_false]
  exact Bool.false_ne_true

theorem agree_joined {more more' : List (Connective × TestExpr)}
    (h : List.Forall₂ (fun c d => c.1 = d.1 ∧ OperandAgree c.2 d.2) more more') :
    ∀ {e : TestExpr} {left : Option TestExpr} {group : TestExpr},
      Agree e (joined left group []) → Agree (chained e more) (joined left group more') := by
  induction h with
  | nil => exact fun hstart => hstart
  | @cons c d more more' hcd _ ih =>
    intro e left group hstart
    obtain ⟨c, f⟩ := c
    obtain ⟨d, f'⟩ := d
    obtain ⟨rfl, hf⟩ : c = d ∧ OperandAgree f f' := hcd
    show Agree (chained (c.node e f) more) _
    cases c with
    | and =>
      cases left with
      | none => exact ih (agree_and hstart hf.agree)
      | some left => exact ih (agree_and_or e f left group f')
    | or =>
      cases left with
      | none => exact ih (agree_or hstart hf)
      | some left => exact ih (agree_or hstart hf)

/-! ## The parser beside the rules -/

section Beside

variable {R S : TestExpr → TestExpr → Prop} {p q p' q' : Rule}

theorem beside_or (h : Peg.Beside R p q) (h' : Peg.Beside R p' q') :
    Peg.Beside R (fun s => (p s).or (p' s)) fun s => (q s).or (q' s) :=
  fun s => Peg.rel_or (h s) (h' s)

theorem beside_map {f : TestExpr → TestExpr} (h : Peg.Beside R p q)
    (hf : ∀ e e', R e e' → S (f e) (f e')) :
    Peg.Beside S (fun s => (p s).map fun (e, t) => (f e, t)) fun s =>
      (q s).map fun (e, t) => (f e, t) :=
  fun s => Peg.rel_map (h s) fun _ _ hr => ⟨hf _ _ hr.1, hr.2⟩

theorem beside_negated (h : Peg.Beside R p q) (hnot : ∀ e e', R e e' → S (.not e) (.not e')) :
    Peg.Beside S (negated p) (negated q) := by
  rintro (_ | ⟨op, t⟩)
  · exact .none
  · rw [negated_cons, negated_cons]
    split_ifs
    · exact beside_map h hnot t
    · exact .none

theorem beside_bracketed (h : Peg.Beside R p q) :
    Peg.Beside R (bracketed p) (bracketed q) := by
  rintro (_ | ⟨op, t⟩)
  · exact .none
  · rw [bracketed_cons, bracketed_cons]
    split_ifs
    · have ht := h t
      generalize p t = r at ht
      generalize q t = r' at ht
      cases ht with
      | none => exact .none
      | @some r r' hr =>
        obtain ⟨e, u⟩ := r
        obtain ⟨e', u'⟩ := r'
        obtain ⟨he, rfl⟩ : R e e' ∧ u = u' := hr
        cases u with
        | nil => exact .none
        | cons close u =>
          dsimp only
          split_ifs
          · exact .some ⟨he, rfl⟩
          · exact .none
    · exact .none

theorem beside_self (h : ∀ s e t, p s = some (e, t) → R e e) : Peg.Beside R p p := by
  intro s
  cases hp : p s with
  | none => exact .none
  | some r => exact .some ⟨h s r.1 r.2 hp, rfl⟩

theorem beside_connected (h : Peg.Beside R p q) :
    Peg.Beside (fun c d : Connective × TestExpr => c.1 = d.1 ∧ R c.2 d.2) (connected p)
      (connected q) := by
  rintro (_ | ⟨op, t⟩)
  · exact .none
  · unfold connected
    dsimp only
    cases connective op with
    | none => exact .none
    | some c => exact Peg.rel_map (h t) fun _ _ hr => ⟨⟨rfl, hr.1⟩, hr.2⟩

end Beside

theorem operandAgree_self {e : TestExpr} (hfirst : e.andsFirst = true)
    (hand : e.isAnd = Bool.false) : OperandAgree e e :=
  ⟨iff_of_true rfl hfirst, hand⟩

/-- **Step.** Operands agree as what is inside them does. -/
theorem beside_operand {inner : ℕ → Rule} {inner' : Part → Rule}
    (hexpr : Peg.Beside Agree (inner 0) (inner' .expression))
    (hoperand : Peg.Beside OperandAgree (inner 3) (inner' .operand)) :
    Peg.Beside OperandAgree (prefixAtom inner) (operand inner') := by
  refine beside_or (beside_map (beside_bracketed hexpr) fun e e' h => ⟨?_, rfl⟩) <|
    beside_or (beside_negated hoperand fun e e' h => ⟨?_, rfl⟩) <|
    beside_or (beside_self ?_) <| beside_or (beside_self ?_) (beside_self ?_)
  · show (TestExpr.parenthesized e = .parenthesized e') ↔ e'.andsFirst = true
    rw [TestExpr.parenthesized.injEq]
    exact h
  · show (TestExpr.not e = .not e') ↔ e'.andsFirst = true
    rw [TestExpr.not.injEq]
    exact h.agree
  · rintro (_ | ⟨left, _ | ⟨op, _ | ⟨right, t⟩⟩⟩) e u h
    · cases h
    · cases h
    · cases h
    · obtain ⟨_, -, hp⟩ := Option.map_eq_some_iff.1 h
      cases hp
      exact operandAgree_self rfl rfl
  · rintro (_ | ⟨op, _ | ⟨s, t⟩⟩) e u h
    · cases h
    · cases h
    · obtain ⟨_, -, hp⟩ := Option.map_eq_some_iff.1 h
      cases hp
      exact operandAgree_self rfl rfl
  · rintro (_ | ⟨s, t⟩) e u h
    · cases h
    · cases h
      exact operandAgree_self rfl rfl

/-- **Run.** The parser and the rules take the same arguments. -/
theorem beside (n : ℕ) : Peg.Beside Agree (infixParse n 0) (read n .expression) ∧
    ∀ m, 0 < m → Peg.Beside OperandAgree (infixParse n m) (read n .operand) := by
  induction n with
  | zero => exact ⟨fun _ => .none, fun _ _ _ => .none⟩
  | succ n ih =>
    have hatom : Peg.Beside OperandAgree (prefixAtom (infixParse n)) (operand (read n)) :=
      beside_operand ih.1 (ih.2 3 (by decide))
    constructor
    · intro s
      show Option.Rel _ (infixStep (infixParse n) 0 s) (readStep (read n) .expression s)
      rw [infixStep_zero]
      refine Peg.rel_map (hatom s) ?_
      rintro ⟨e, t⟩ ⟨e', t'⟩ ⟨he, ht⟩
      obtain rfl : t = t' := ht
      have hmany := (beside_connected (ih.2 1 (by decide))).many t.length t
      exact ⟨agree_joined hmany.1 he.agree, hmany.2⟩
    · intro m hm s
      show Option.Rel _ (infixStep (infixParse n) m s) _
      rw [infixStep_of_pos _ hm]
      exact hatom s

theorem atEnd_infixParse (n : ℕ) (args : List Arg) :
    Option.Rel Agree (atEnd (infixParse n 0 args)) (atEnd (read n .expression args)) := by
  have h := (beside n).1 args
  generalize infixParse n 0 args = r at h
  generalize read n .expression args = r' at h
  cases h with
  | none => exact .none
  | @some r r' hr =>
    obtain ⟨e, t⟩ := r
    obtain ⟨e', t'⟩ := r'
    obtain ⟨he, rfl⟩ : Agree e e' ∧ t = t' := hr
    cases t with
    | nil => exact .some he
    | cons => exact .none

/-! ## Short lists -/

/-- What is left where no connective can be read. -/
structure Stuck (t : List Arg) : Prop where
  ne_nil : t ≠ []
  connected : ∀ rule : Rule, rule [] = none → connected rule t = none

theorem stuck_one (s : Arg) : Stuck [s] := by
  refine ⟨List.cons_ne_nil _ _, fun rule hrule => ?_⟩
  unfold TestCommand.connected
  dsimp only
  rw [hrule]
  cases connective s <;> rfl

theorem stuck_cons {op : Arg} (h : connective op = none) (t : List Arg) : Stuck (op :: t) := by
  refine ⟨List.cons_ne_nil _ _, fun rule _ => ?_⟩
  unfold TestCommand.connected
  dsimp only
  rw [h]
  rfl

theorem infixParse_nil (n m : ℕ) : infixParse n m [] = none :=
  (inner_infixStep.nested_shortens n m).nil

section Short

variable {inner : ℕ → Rule} (hnil : ∀ m, inner m [] = none)
include hnil

theorem infixStep_stuck {s t : List Arg} {e : TestExpr} (hatom : prefixAtom inner s = some (e, t))
    (ht : t = [] ∨ Stuck t) (m : ℕ) : infixStep inner m s = some (e, t) := by
  cases m with
  | succ m => rw [infixStep_of_pos inner (Nat.succ_pos m), hatom]
  | zero =>
    have hmany : Peg.many (connected (inner 1)) t.length t = ([], t) := by
      rcases ht with rfl | ht
      · rfl
      · exact (Peg.Reads.done (ht.connected _ (hnil 1))).many (Nat.zero_le _)
    rw [infixStep_zero, hatom]
    show some (chained e _, _) = _
    rw [hmany]
    rfl

theorem atEnd_stuck {s t : List Arg} {e : TestExpr} (hatom : prefixAtom inner s = some (e, t))
    (ht : Stuck t) : atEnd (infixStep inner 0 s) = none := by
  rw [infixStep_stuck hnil hatom (.inr ht)]
  cases t with
  | nil => exact absurd rfl ht.ne_nil
  | cons => rfl

theorem prefixAtom_one (s : Arg) : prefixAtom inner [s] = some (.literal s, []) := by
  unfold prefixAtom
  rw [bracketed_cons, negated_cons, hnil, hnil]
  simp [binaryTest, unaryTest, oneArgExpr]

end Short

theorem infixParse_one (n m : ℕ) (s : Arg) :
    infixParse (n + 1) m [s] = some (.literal s, []) :=
  infixStep_stuck (infixParse_nil n) (prefixAtom_one (infixParse_nil n) s) (.inl rfl) m

theorem connective_eq_none {op : Arg} (h : unaryOp op = none) : connective op = none := by
  unfold connective
  rw [if_neg (by rintro rfl; cases h), if_neg (by rintro rfl; cases h)]

theorem binaryOp_eq_none {op : Arg} {p : UnaryPredicate} (h : unaryOp op = some p) :
    binaryOp op = none := by
  unfold unaryOp at h
  split at h <;> first | rfl | cases h

theorem twoArguments_eq_none {op s : Arg} :
    twoArguments op s = none ↔ op ≠ ['!'] ∧ unaryOp op = none := by
  unfold twoArguments
  split_ifs with h
  · exact iff_of_false nofun fun h' => h'.1 h
  · rw [Option.map_eq_none_iff]
    exact (and_iff_right h).symm

section Alternatives

variable {inner : ℕ → Rule} {op : Arg} {s t u : List Arg} {e : TestExpr}

theorem bracketed_of_ne (h : op ≠ ['(']) (rule : Rule) : bracketed rule (op :: t) = none := by
  rw [bracketed_cons, if_neg h]

theorem bracketed_of_end {rule : Rule} (h : rule t = some (e, [])) :
    bracketed rule (op :: t) = none := by
  rw [bracketed_cons, h]
  split_ifs <;> rfl

theorem bracketed_of_close {rule : Rule} {close : Arg} (h : rule t = some (e, close :: u)) :
    bracketed rule (['('] :: t) = if close = [')'] then some (e, u) else none := by
  rw [bracketed_cons, if_pos rfl, h]

theorem prefixAtom_group (h : bracketed (inner 0) s = some (e, u)) :
    prefixAtom inner s = some (.parenthesized e, u) := by
  unfold prefixAtom
  rw [h]
  rfl

theorem prefixAtom_not (h : inner 3 t = some (e, u)) :
    prefixAtom inner (['!'] :: t) = some (.not e, u) := by
  unfold prefixAtom
  rw [bracketed_of_ne (by decide), negated_cons, if_pos rfl, h]
  rfl

theorem prefixAtom_plain (hgroup : bracketed (inner 0) (op :: t) = none) (hnot : op ≠ ['!']) :
    prefixAtom inner (op :: t) =
      (binaryTest (op :: t)).or ((unaryTest (op :: t)).or (some (.literal op, t))) := by
  unfold prefixAtom
  rw [hgroup, negated_cons, if_neg hnot]
  rfl

end Alternatives

theorem infixParse_two (n m : ℕ) (op s : Arg) : infixParse (n + 2) m [op, s] =
    some (match twoArguments op s with
      | some e => (e, [])
      | none => (.literal op, [s])) := by
  have hgroup : bracketed (infixParse (n + 1) 0) [op, s] = none :=
    bracketed_of_end (infixParse_one n 0 s)
  have hnil := infixParse_nil (n + 1)
  by_cases hnot : op = ['!']
  · rw [hnot]
    exact infixStep_stuck hnil (prefixAtom_not (infixParse_one n 3 s)) (.inl rfl) m
  · have hatom := @prefixAtom_plain (infixParse (n + 1)) _ _ hgroup hnot
    unfold twoArguments
    rw [if_neg hnot]
    cases hop : unaryOp op with
    | some p =>
      refine infixStep_stuck hnil (hatom.trans ?_) (.inl rfl) m
      show (((unaryOp op).map _).or _) = _
      rw [hop]
      rfl
    | none =>
      refine infixStep_stuck hnil (hatom.trans ?_) (.inr (stuck_one s)) m
      show (((unaryOp op).map _).or _) = _
      rw [hop]
      rfl

theorem infixParse_three {left op right : Arg} (h : threeArguments left op right = none)
    (n : ℕ) : ∃ e t, Stuck t ∧ ∀ m, infixParse (n + 3) m [left, op, right] = some (e, t) := by
  have hnil := infixParse_nil (n + 2)
  unfold threeArguments at h
  cases hc : connective op with
  | some c => simp [hc] at h
  | none =>
    cases hb : binaryOp op with
    | some p => simp [hc, hb] at h
    | none =>
      rw [hc, hb] at h
      dsimp only at h
      have htwo := infixParse_two n 3 op right
      by_cases hnot : left = ['!']
      · rw [if_pos hnot, Option.map_eq_none_iff] at h
        rw [h] at htwo
        refine ⟨.not (.literal op), [right], stuck_one right, fun m => ?_⟩
        rw [hnot]
        exact infixStep_stuck hnil (prefixAtom_not htwo) (.inr (stuck_one right)) m
      · rw [if_neg hnot] at h
        have hgroup : bracketed (infixParse (n + 2) 0) [left, op, right] = none := by
          by_cases hopen : left = ['(']
          · have hclose : right ≠ [')'] := by
              rintro rfl
              rw [if_pos ⟨hopen, rfl⟩] at h
              cases h
            have hinside := infixParse_two n 0 op right
            rw [hopen]
            cases htwo : twoArguments op right with
            | some e =>
              rw [htwo] at hinside
              exact bracketed_of_end hinside
            | none =>
              rw [htwo] at hinside
              exact (bracketed_of_close hinside).trans (if_neg hclose)
          · exact bracketed_of_ne hopen _
        have hatom := @prefixAtom_plain (infixParse (n + 2)) _ _ hgroup hnot
        cases hu : unaryOp left with
        | some p =>
          refine ⟨.unaryTest p op, [right], stuck_one right, fun m =>
            infixStep_stuck hnil (hatom.trans ?_) (.inr (stuck_one right)) m⟩
          show (((binaryOp op).map _).or (((unaryOp left).map _).or _)) = _
          rw [hb, hu]
          rfl
        | none =>
          refine ⟨.literal left, [op, right], stuck_cons hc [right], fun m =>
            infixStep_stuck hnil (hatom.trans ?_) (.inr (stuck_cons hc [right])) m⟩
          show (((binaryOp op).map _).or (((unaryOp left).map _).or _)) = _
          rw [hb, hu]
          rfl

/-! ## Up to four arguments -/

def Takes (k : ℕ) (rule : Rule) : Prop := ∀ s e t, rule s = some (e, t) → s.length = t.length + k

variable {k : ℕ}

theorem Takes.atEnd {rule : Rule} (h : Takes k rule) {s : List Arg} (hs : s.length ≠ k) :
    atEnd (rule s) = none := by
  cases hr : rule s with
  | none => rfl
  | some r =>
    obtain ⟨e, t⟩ := r
    have hlen := h s e t hr
    cases t with
    | nil => exact absurd (hlen.trans (Nat.zero_add k)) hs
    | cons => rfl

theorem takes_or {p q : Rule} (hp : Takes k p) (hq : Takes k q) :
    Takes k fun s => (p s).or (q s) := by
  intro s e t h
  rcases Option.or_eq_some_iff.1 h with h | ⟨-, h⟩
  · exact hp s e t h
  · exact hq s e t h

theorem takes_negated {rule : Rule} (h : Takes k rule) : Takes (k + 1) (negated rule) := by
  rintro (_ | ⟨op, t⟩) e u hr
  · cases hr
  · rw [negated_cons] at hr
    split_ifs at hr
    obtain ⟨⟨e', u'⟩, hr, heq⟩ := Option.map_eq_some_iff.1 hr
    cases heq
    rw [List.length_cons, h t e' u hr, Nat.add_assoc]

theorem takes_bracketed {rule : Rule} (h : Takes k rule) :
    Takes (k + 2) (bracketed rule) := by
  rintro (_ | ⟨op, t⟩) e u hr
  · cases hr
  · rw [bracketed_cons] at hr
    split_ifs at hr
    split at hr
    · rename_i e' close u' hinside
      split_ifs at hr
      cases hr
      rw [List.length_cons, h t e _ hinside, List.length_cons]
      omega
    · cases hr

theorem takes_oneArgExpr : Takes 1 oneArgExpr := by
  rintro (_ | ⟨s, t⟩) e u h
  · cases h
  · cases h
    rfl

theorem takes_unaryTest : Takes 2 unaryTest := by
  rintro (_ | ⟨op, _ | ⟨s, t⟩⟩) e u h
  · cases h
  · cases h
  · obtain ⟨_, -, hp⟩ := Option.map_eq_some_iff.1 h
    cases hp
    rfl

theorem takes_binaryTest : Takes 3 binaryTest := by
  rintro (_ | ⟨left, _ | ⟨op, _ | ⟨right, t⟩⟩⟩) e u h
  · cases h
  · cases h
  · cases h
  · obtain ⟨_, -, hp⟩ := Option.map_eq_some_iff.1 h
    cases hp
    rfl

theorem takes_joinedLiterals (text : Arg) (node : TestExpr → TestExpr → TestExpr) :
    Takes 3 (joinedLiterals text node) := by
  rintro (_ | ⟨left, _ | ⟨op, _ | ⟨right, t⟩⟩⟩) e u h
  · cases h
  · cases h
  · cases h
  · unfold joinedLiterals at h
    dsimp only at h
    split_ifs at h
    cases h
    rfl

theorem takes_twoArgExpr : Takes 2 twoArgExpr :=
  takes_or (takes_negated takes_oneArgExpr) takes_unaryTest

theorem takes_threeArgExpr : Takes 3 threeArgExpr :=
  takes_or (takes_joinedLiterals _ _) <| takes_or (takes_joinedLiterals _ _) <|
    takes_or takes_binaryTest <| takes_or (takes_negated takes_twoArgExpr)
      (takes_bracketed takes_oneArgExpr)

theorem takes_fourArgExpr : Takes 4 fourArgExpr := takes_negated takes_threeArgExpr

theorem twoArgExpr_eq (op s : Arg) (t : List Arg) :
    twoArgExpr (op :: s :: t) = (twoArguments op s).map fun e => (e, t) := by
  unfold twoArgExpr twoArguments
  rw [negated_cons]
  split_ifs
  · rfl
  · show (unaryOp op).map _ = _
    rw [Option.map_map]
    rfl

theorem threeArgExpr_eq (left op right : Arg) :
    threeArgExpr [left, op, right] = (threeArguments left op right).map fun e => (e, []) := by
  unfold threeArgExpr threeArguments connective joinedLiterals
  dsimp only
  by_cases hand : op = ['-', 'a']
  · rw [if_pos hand, if_pos hand]
    rfl
  · rw [if_neg hand, if_neg hand, Option.none_or]
    by_cases hor : op = ['-', 'o']
    · rw [if_pos hor, if_pos hor]
      rfl
    · rw [if_neg hor, if_neg hor, Option.none_or]
      show ((binaryOp op).map _).or _ = _
      cases binaryOp op with
      | some p => rfl
      | none =>
        rw [negated_cons, bracketed_cons, twoArgExpr_eq]
        dsimp only
        by_cases hnot : left = ['!']
        · have hopen : left ≠ ['('] := by
            rw [hnot]
            decide
          rw [if_pos hnot, if_pos hnot, if_neg hopen, Option.map_map, Option.map_map]
          simp [Function.comp_def]
        · rw [if_neg hnot, if_neg hnot]
          by_cases hopen : left = ['(']
          · simp [hopen, oneArgExpr]
          · simp [hopen]

theorem atEnd_map {α : Type} (o : Option α) (f : α → TestExpr) :
    atEnd (o.map fun a => (f a, [])) = o.map f := by
  cases o <;> rfl

theorem parse_two (op s : Arg) : parse [op, s] = twoArguments op s := by
  have hparse : parse [op, s] =
      (atEnd (twoArgExpr [op, s])).or ((atEnd (threeArgExpr [op, s])).or
        ((atEnd (fourArgExpr [op, s])).or (atEnd (infixParse 3 0 [op, s])))) := rfl
  rw [hparse, takes_threeArgExpr.atEnd (by simp), takes_fourArgExpr.atEnd (by simp),
    twoArgExpr_eq, atEnd_map, infixParse_two 1 0 op s]
  cases twoArguments op s <;> rfl

theorem parse_three (left op right : Arg) :
    parse [left, op, right] = threeArguments left op right := by
  have hparse : parse [left, op, right] =
      (atEnd (twoArgExpr [left, op, right])).or ((atEnd (threeArgExpr [left, op, right])).or
        ((atEnd (fourArgExpr [left, op, right])).or
          (atEnd (infixParse 4 0 [left, op, right])))) := rfl
  rw [hparse, takes_twoArgExpr.atEnd (by simp), takes_fourArgExpr.atEnd (by simp),
    threeArgExpr_eq, atEnd_map]
  cases h : threeArguments left op right with
  | some e => rfl
  | none =>
    obtain ⟨e, t, ht, hparse⟩ := infixParse_three h 1
    rw [hparse 0]
    cases t with
    | nil => exact absurd rfl ht.ne_nil
    | cons => rfl

theorem parse_many (h : 3 < args.length) : parse args =
    (atEnd (fourArgExpr args)).or (atEnd (infixParse (args.length + 1) 0 args)) := by
  have hne : args ≠ [] := by
    rintro rfl
    exact absurd h (by decide)
  rw [parse, if_neg hne, takes_oneArgExpr.atEnd (by omega), takes_twoArgExpr.atEnd (by omega),
    takes_threeArgExpr.atEnd (by omega)]
  rfl

theorem parse_not (b c d : Arg) : parse [['!'], b, c, d] = (threeArguments b c d).map .not := by
  rw [parse_many (by simp), fourArgExpr, negated_cons, if_pos rfl, threeArgExpr_eq, Option.map_map]
  have hmap : atEnd ((threeArguments b c d).map
      ((fun r : TestExpr × List Arg => (TestExpr.not r.1, r.2)) ∘ fun e => (e, []))) =
        (threeArguments b c d).map .not := atEnd_map _ _
  refine (congrArg (Option.or · _) hmap).trans ?_
  cases h : threeArguments b c d with
  | some e => rfl
  | none =>
    obtain ⟨e, t, ht, hinside⟩ := infixParse_three h 1
    exact atEnd_stuck (infixParse_nil 4) (prefixAtom_not (hinside 3)) ht

theorem parse_precedence (h : 3 < args.length)
    (hnot : args.length = 4 → args.head? ≠ some ['!']) :
    parse args = atEnd (infixParse (args.length + 1) 0 args) := by
  rw [parse_many h]
  have hfour : atEnd (fourArgExpr args) = none := by
    by_cases hlen : args.length = 4
    · cases args with
      | nil => rfl
      | cons op t =>
        rw [fourArgExpr, negated_cons, if_neg fun heq => hnot hlen (congrArg some heq)]
        rfl
    · exact takes_fourArgExpr.atEnd hlen
  rw [hfour]
  rfl

/-! ## A group of four arguments -/

def TakesClose (op s : Arg) : Prop :=
  op = ['!'] ∧ (s = ['!'] ∨ (unaryOp s).isSome = true) ∨
    (unaryOp op).isSome = true ∧ (binaryOp s).isSome = true

instance (op s : Arg) : Decidable (TakesClose op s) := by
  unfold TakesClose
  infer_instance

variable {x y : Arg}

theorem atEnd_no_group (n : ℕ)
    (hx : connective x = none ∨ infixParse (n + 2) 1 [y, [')']] = some (.literal y, [[')']]))
    (h : bracketed (infixParse (n + 2) 0) [['('], x, y, [')']] = none) :
    atEnd (infixParse (n + 3) 0 [['('], x, y, [')']]) = none := by
  have hnil := infixParse_nil (n + 2)
  have hatom := @prefixAtom_plain (infixParse (n + 2)) _ _ h (by decide)
  cases hb : binaryOp x with
  | some p =>
    have htest : prefixAtom (infixParse (n + 2)) [['('], x, y, [')']] =
        some (.binaryTest p ['('] y, [[')']]) := by
      rw [hatom]
      show ((binaryOp x).map _).or _ = _
      rw [hb]
      rfl
    exact atEnd_stuck hnil htest (stuck_one [')'])
  | none =>
    have hliteral : prefixAtom (infixParse (n + 2)) [['('], x, y, [')']] =
        some (.literal ['('], [x, y, [')']]) := by
      rw [hatom]
      show ((binaryOp x).map _).or _ = _
      rw [hb]
      rfl
    cases hc : connective x with
    | none => exact atEnd_stuck hnil hliteral (stuck_cons hc [y, [')']])
    | some c =>
      have hy := hx.resolve_left (by rw [hc]; exact nofun)
      have hfirst : connected (infixParse (n + 2) 1) [x, y, [')']] =
          some ((c, .literal y), [[')']]) := by
        unfold connected
        dsimp only
        rw [hc, hy]
        rfl
      have hrest := (stuck_one [')']).connected (infixParse (n + 2) 1) (hnil 1)
      have hreads : Peg.Reads (connected (infixParse (n + 2) 1)) [x, y, [')']]
          [(c, .literal y)] [[')']] := .more hfirst (by simp) (.done hrest)
      show atEnd (infixStep (infixParse (n + 2)) 0 _) = none
      rw [infixStep_zero, hliteral, Option.map_some]
      dsimp only
      rw [Peg.many_of_reads hreads]
      rfl

theorem atEnd_closed {e : TestExpr} (n : ℕ)
    (h : infixParse (n + 2) 0 [x, y, [')']] = some (e, [[')']])) :
    atEnd (infixParse (n + 3) 0 [['('], x, y, [')']]) = some (.parenthesized e) := by
  have hgroup := (bracketed_of_close h).trans (if_pos rfl)
  have hatom := @prefixAtom_group (infixParse (n + 2)) _ _ _ hgroup
  exact congrArg atEnd (infixStep_stuck (infixParse_nil (n + 2)) hatom (.inl rfl) 0)

theorem twoArguments_of_binaryOp {op s : Arg} {p : BinaryPredicate} (h : binaryOp op = some p) :
    twoArguments op s = none := by
  rw [twoArguments_eq_none]
  constructor
  · rintro rfl
    cases h
  · cases hu : unaryOp op with
    | none => rfl
    | some q => exact nomatch h.symm.trans (binaryOp_eq_none hu)

theorem atEnd_plain (n : ℕ) (hnot : x ≠ ['!'])
    (hgroup : bracketed (infixParse (n + 2) 0) [x, y, [')']] = none) :
    atEnd (infixParse (n + 4) 0 [['('], x, y, [')']]) =
      if (binaryOp y).isSome then none else (twoArguments x y).map .parenthesized := by
  have hnil := infixParse_nil (n + 2)
  have hatom := @prefixAtom_plain (infixParse (n + 2)) _ _ hgroup hnot
  cases hb : binaryOp y with
  | some p =>
    have htest : prefixAtom (infixParse (n + 2)) [x, y, [')']] =
        some (.binaryTest p x [')'], []) := by
      rw [hatom]
      show ((binaryOp y).map _).or _ = _
      rw [hb]
      rfl
    refine atEnd_no_group (n + 1) (.inr ?_)
      (bracketed_of_end (infixStep_stuck hnil htest (.inl rfl) 0))
    rw [infixParse_two, twoArguments_of_binaryOp hb]
  | none =>
    show _ = (twoArguments x y).map TestExpr.parenthesized
    unfold twoArguments
    rw [if_neg hnot]
    cases hu : unaryOp x with
    | some p =>
      have htest : prefixAtom (infixParse (n + 2)) [x, y, [')']] =
          some (.unaryTest p y, [[')']]) := by
        rw [hatom]
        show ((binaryOp y).map _).or (((unaryOp x).map _).or _) = _
        rw [hb, hu]
        rfl
      exact atEnd_closed (n + 1) (infixStep_stuck hnil htest (.inr (stuck_one [')'])) 0)
    | none =>
      have hx : connective x = none := connective_eq_none hu
      have hliteral : prefixAtom (infixParse (n + 2)) [x, y, [')']] =
          some (.literal x, [y, [')']]) := by
        rw [hatom]
        show ((binaryOp y).map _).or (((unaryOp x).map _).or _) = _
        rw [hb, hu]
        rfl
      cases hc : connective y with
      | none =>
        have hinside := infixStep_stuck hnil hliteral (.inr (stuck_cons hc [[')']])) 0
        by_cases hclose : y = [')']
        · have hopen := (@bracketed_of_close _ _ _ (infixParse (n + 3) 0) _ hinside).trans
            (if_pos hclose)
          exact atEnd_stuck (infixParse_nil (n + 3)) (prefixAtom_group hopen) (stuck_one [')'])
        · exact atEnd_no_group (n + 1) (.inl hx)
            ((@bracketed_of_close _ _ _ (infixParse (n + 3) 0) _ hinside).trans (if_neg hclose))
      | some c =>
        have hmore : connected (infixParse (n + 2) 1) [y, [')']] =
            some ((c, .literal [')']), []) := by
          unfold connected
          dsimp only
          rw [hc, infixParse_one (n + 1) 1 [')']]
          rfl
        have hreads : Peg.Reads (connected (infixParse (n + 2) 1)) [y, [')']]
            [(c, .literal [')'])] [] := .more hmore (by simp) (.done rfl)
        have hinside : infixParse (n + 3) 0 [x, y, [')']] =
            some (c.node (.literal x) (.literal [')']), []) := by
          show infixStep (infixParse (n + 2)) 0 _ = _
          rw [infixStep_zero, hliteral, Option.map_some]
          dsimp only
          rw [Peg.many_of_reads hreads]
          rfl
        exact atEnd_no_group (n + 1) (.inl hx) (bracketed_of_end hinside)

/-- **Groups of four arguments.** Such a group is read by its inside unless an operator there takes
the parenthesis that is to close it. -/
theorem parse_group (x y : Arg) : parse [['('], x, y, [')']] =
    if TakesClose x y then none else (twoArguments x y).map .parenthesized := by
  rw [parse_precedence (by simp) fun _ => by simp]
  show atEnd (infixParse 5 0 _) = _
  by_cases hnot : x = ['!']
  · have htwo := infixParse_two 1 3 y [')']
    have htakes : TakesClose x y ↔ twoArguments y [')'] ≠ none := by
      rw [Ne, twoArguments_eq_none, not_and_or, not_not, ← Ne, ← Option.isSome_iff_ne_none, hnot]
      constructor
      · rintro (⟨-, h⟩ | ⟨h, -⟩)
        · exact h
        · cases h
      · exact fun h => .inl ⟨rfl, h⟩
    rw [hnot] at htakes ⊢
    cases h : twoArguments y [')'] with
    | some e =>
      rw [h] at htwo htakes
      rw [if_pos (htakes.2 nofun)]
      have hinside := infixStep_stuck (infixParse_nil 3) (prefixAtom_not htwo) (.inl rfl) 0
      exact atEnd_no_group 2 (.inl rfl) (bracketed_of_end hinside)
    | none =>
      rw [h] at htwo htakes
      rw [if_neg fun h' => htakes.1 h' rfl]
      have hinside := infixStep_stuck (infixParse_nil 3) (prefixAtom_not htwo)
        (.inr (stuck_one [')'])) 0
      exact atEnd_closed 2 hinside
  · have htakes : TakesClose x y ↔ (unaryOp x).isSome = true ∧ (binaryOp y).isSome = true :=
      or_iff_right fun h => hnot h.1
    have hplain : bracketed (infixParse 3 0) [x, y, [')']] = none →
        atEnd (infixParse 5 0 [['('], x, y, [')']]) =
          if TakesClose x y then none else (twoArguments x y).map .parenthesized := by
      intro hgroup
      rw [atEnd_plain 1 hnot hgroup]
      cases hb : binaryOp y with
      | none => simp [htakes, hb]
      | some p =>
        cases hu : unaryOp x with
        | some q => simp [htakes, hb, hu]
        | none => simp [htakes, hb, hu, twoArguments, hnot]
    by_cases hopen : x = ['(']
    · have htwo := infixParse_two 1 0 y [')']
      cases h : twoArguments y [')'] with
      | some e =>
        rw [h] at htwo
        rw [hopen] at hplain ⊢
        exact hplain (bracketed_of_end htwo)
      | none =>
        rw [h] at htwo
        have hinside := (bracketed_of_close htwo).trans (if_pos rfl)
        have hatom := infixStep_stuck (infixParse_nil 3) (prefixAtom_group hinside) (.inl rfl) 0
        rw [hopen] at htakes ⊢
        rw [if_neg fun h' => nomatch (htakes.1 h').1]
        exact atEnd_no_group 2 (.inl rfl) (bracketed_of_end hatom)
    · exact hplain (bracketed_of_ne hopen _)

/-! ## Result -/

theorem twoArguments_andsFirst {op s : Arg} {e : TestExpr} (h : twoArguments op s = some e) :
    e.andsFirst = true := by
  unfold twoArguments at h
  split_ifs at h
  · cases h
    rfl
  · obtain ⟨_, -, rfl⟩ := Option.map_eq_some_iff.1 h
    rfl

theorem threeArguments_andsFirst {left op right : Arg} {e : TestExpr}
    (h : threeArguments left op right = some e) : e.andsFirst = true := by
  unfold threeArguments at h
  split at h
  · rename_i c _
    cases h
    cases c <;> rfl
  · cases h
    rfl
  · split_ifs at h
    · obtain ⟨e', he', rfl⟩ := Option.map_eq_some_iff.1 h
      show e'.andsFirst = true
      exact twoArguments_andsFirst he'
    · cases h
      rfl

/-- **Result.** The parser reads arguments by the rules unless they are a group of four whose inside
takes the closing parenthesis, or are to be read with a `-a` to the right of a `-o`. -/
theorem parse_eq_rules_iff (args : List Arg) : parse args = rules args ↔
    (∀ x y, args = [['('], x, y, [')']] → ¬TakesClose x y) ∧
      ∀ e, rules args = some e → e.andsFirst = true := by
  -- Where the parser goes by the count, it does as the rules do.
  have hcount : parse args = rules args → args.length ≠ 4 ∨ args.head? ≠ some ['('] →
      (∀ e, rules args = some e → e.andsFirst = true) → (parse args = rules args ↔
        (∀ x y, args = [['('], x, y, [')']] → ¬TakesClose x y) ∧
          ∀ e, rules args = some e → e.andsFirst = true) := by
    intro heq hopen hfirst
    refine iff_of_true heq ⟨?_, hfirst⟩
    rintro x y rfl
    exact absurd rfl (hopen.resolve_left fun h => h rfl)
  have hprecedence : parse args = atEnd (infixParse (args.length + 1) 0 args) →
      rules args = byPrecedence args → (∀ x y, args ≠ [['('], x, y, [')']]) →
        (parse args = rules args ↔ (∀ x y, args = [['('], x, y, [')']] → ¬TakesClose x y) ∧
          ∀ e, rules args = some e → e.andsFirst = true) := by
    intro hparse hrules hopen
    rw [hparse, hrules]
    have hagree := atEnd_infixParse (args.length + 1) args
    unfold byPrecedence
    generalize atEnd (infixParse (args.length + 1) 0 args) = r at hagree
    generalize atEnd (read (args.length + 1) .expression args) = r' at hagree
    cases hagree with
    | none => exact iff_of_true rfl ⟨fun x y h => absurd h (hopen x y), nofun⟩
    | @some e e' h =>
      rw [Option.some.injEq]
      refine (h : e = e' ↔ e'.andsFirst = true).trans ⟨fun hfirst => ⟨fun x y h' =>
        absurd h' (hopen x y), fun e'' he => ?_⟩, fun h' => h'.2 e' rfl⟩
      cases he
      exact hfirst
  match args with
  | [] =>
    refine hcount rfl (.inl (by decide)) fun e he => ?_
    cases he
    rfl
  | [s] =>
    refine hcount rfl (.inl (by simp)) fun e he => ?_
    cases he
    rfl
  | [op, s] => exact hcount (parse_two op s) (.inl (by simp)) fun e => twoArguments_andsFirst
  | [left, op, right] =>
    exact hcount (parse_three left op right) (.inl (by simp)) fun e => threeArguments_andsFirst
  | [a, b, c, d] =>
    by_cases hnot : a = ['!']
    · rw [hnot] at hcount ⊢
      have hrules : rules [['!'], b, c, d] = (threeArguments b c d).map .not := rfl
      refine hcount ((parse_not b c d).trans hrules.symm) (.inr (by simp)) fun e he => ?_
      obtain ⟨e', he', rfl⟩ := Option.map_eq_some_iff.1 (hrules.symm.trans he)
      show e'.andsFirst = true
      exact threeArguments_andsFirst he'
    · by_cases hgroup : a = ['('] ∧ d = [')']
      · obtain ⟨rfl, rfl⟩ := hgroup
        have hrules : rules [['('], b, c, [')']] = (twoArguments b c).map .parenthesized := rfl
        rw [parse_group, hrules]
        have hfirst : ∀ e, (twoArguments b c).map TestExpr.parenthesized = some e →
            e.andsFirst = true := by
          intro e he
          obtain ⟨e', he', rfl⟩ := Option.map_eq_some_iff.1 he
          show e'.andsFirst = true
          exact twoArguments_andsFirst he'
        split_ifs with htakes
        · refine iff_of_false (fun h => ?_) fun h => h.1 b c rfl htakes
          have hnone := twoArguments_eq_none.1 (Option.map_eq_none_iff.1 h.symm)
          rcases htakes with ⟨heq, -⟩ | ⟨hsome, -⟩
          · exact hnone.1 heq
          · rw [hnone.2] at hsome
            cases hsome
        · refine iff_of_true rfl ⟨fun x y h => ?_, hfirst⟩
          simp only [List.cons.injEq, and_true, true_and] at h
          obtain ⟨rfl, rfl⟩ := h
          exact htakes
      · refine hprecedence (parse_precedence (by simp) fun _ => by simpa using hnot) ?_ ?_
        · show (if a = ['!'] then _ else if a = ['('] ∧ d = [')'] then _ else _) = _
          rw [if_neg hnot, if_neg hgroup]
        · rintro x y h
          simp only [List.cons.injEq, and_true] at h
          exact hgroup ⟨h.1, h.2.2.2⟩
  | a :: b :: c :: d :: f :: more =>
    exact hprecedence (parse_precedence (by simp) fun h => by simp at h) rfl fun x y h => by
      simp at h

/-- `x -o y -a z`, and `( ! ! )`. -/
theorem parse_ne_rules : parse [['x'], ['-', 'o'], ['y'], ['-', 'a'], ['z']] ≠
        rules [['x'], ['-', 'o'], ['y'], ['-', 'a'], ['z']] ∧
      parse [['('], ['!'], ['!'], [')']] = none ∧
      rules [['('], ['!'], ['!'], [')']] = some (.parenthesized (.not (.literal ['!']))) := by
  decide

end Seahaven.TestCommand
