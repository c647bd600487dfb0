import Mathlib.Data.List.TakeDrop
import Mathlib.Data.List.TakeWhile
import Seahaven.Arithmetic.Grammar

/-!
# Number notations

A number may be written with a base before it, with the prefix of a base, or in decimal. With a base
it is read modulo `2 ^ 64`; the other notations go through conversions that fail when the number
does not fit, and then the next alternative is tried on the same text.

1. `digitsValue`: the value of a digit string, and what each conversion makes of it.
2. `parse_of_literal`, `parse_of_none`: a text that starts with a digit.
3. `literals_iff`: the numbers that all notations agree on.
-/

namespace Seahaven.Arithmetic

open Shell (parseU64 parseDigits)

/-! ## Digits -/

def IsDigit (radix : Nat) (c : Char) : Prop :=
  ∃ digit, digitValue radix c = some digit ∧ digit < radix

/-- One turn of the loop of `digitsValue`. -/
def stepValue (radix n : Nat) (ch : Char) : Option Nat :=
  match digitValue radix ch with
  | none => none
  | some digit => if radix ≤ digit then none else some (radix * n + digit)

theorem digitsValue_eq (radix : Nat) (s : List Char) :
    digitsValue radix s = s.foldlM (stepValue radix) 0 := rfl

variable {radix n : Nat} {c : Char}

theorem stepValue_eq_some {m : Nat} (h : stepValue radix n c = some m) :
    ∃ digit, digitValue radix c = some digit ∧ digit < radix ∧ m = radix * n + digit := by
  unfold stepValue at h
  cases hd : digitValue radix c with
  | none =>
    rw [hd] at h
    cases h
  | some digit =>
    rw [hd] at h
    dsimp only at h
    split_ifs at h with hlt
    cases h
    exact ⟨digit, rfl, Nat.lt_of_not_le hlt, rfl⟩

variable {s : List Char}

theorem isDigit_of_foldlM :
    ∀ {n m : Nat}, s.foldlM (stepValue radix) n = some m → ∀ c ∈ s, IsDigit radix c := by
  induction s with
  | nil => exact fun _ => nofun
  | cons c s ih =>
    intro n m h
    rw [List.foldlM_cons] at h
    obtain ⟨k, hk, hrest⟩ := Option.bind_eq_some_iff.1 h
    obtain ⟨digit, hdigit, hlt, -⟩ := stepValue_eq_some hk
    exact List.forall_mem_cons.2 ⟨⟨digit, hdigit, hlt⟩, ih hrest⟩

theorem foldlM_addDigit : ∀ {n m : Nat}, s.foldlM (stepValue radix) n = some m →
      s.foldlM (addDigit radix) (Int64.ofNat n) = some (Int64.ofNat m) := by
  induction s with
  | nil =>
    intro n m h
    cases h
    rfl
  | cons c s ih =>
    intro n m h
    rw [List.foldlM_cons] at h ⊢
    obtain ⟨k, hk, hrest⟩ := Option.bind_eq_some_iff.1 h
    obtain ⟨digit, hdigit, hlt, rfl⟩ := stepValue_eq_some hk
    have hstep : addDigit radix (Int64.ofNat n) c = some (Int64.ofNat (radix * n + digit)) := by
      rw [addDigit, hdigit]
      dsimp only
      rw [if_neg (Nat.not_le_of_lt hlt), Int64.ofNat_add, Int64.ofNat_mul, Int64.mul_comm]
    rw [hstep]
    exact ih hrest

theorem parseShellLiteralNumber_eq (hradix : 2 ≤ radix ∧ radix ≤ 64)
    (h : digitsValue radix s = some n) :
    parseShellLiteralNumber s radix = some (Int64.ofNat n) := by
  rw [parseShellLiteralNumber, if_pos hradix]
  exact foldlM_addDigit h

theorem fromStrRadix_eq (hs : s ≠ [])
    (h : digitsValue radix s = some n) :
    fromStrRadix s radix = if n < 2 ^ 63 then some (Int64.ofNat n) else none := by
  rw [fromStrRadix, if_neg hs, h]
  rfl

/-! ## Classes of digits -/

variable {d : List Char}

theorem span_of_forall {p : Char → Bool} (h : ∀ c ∈ d, p c = true) :
    d.span p = (d, []) := by
  rw [List.span_eq_takeWhile_dropWhile, List.takeWhile_eq_self_iff.2 h,
    List.dropWhile_eq_nil_iff.2 h]

theorem char_le_iff (c d : Char) : c ≤ d ↔ c.toNat ≤ d.toNat := by
  rw [Char.le_def, UInt32.le_iff_toNat_le]
  rfl

theorem isDigit_iff (c : Char) : c.isDigit = true ↔ '0' ≤ c ∧ c ≤ '9' := by
  rw [Char.isDigit_iff_toNat, char_le_iff, char_le_iff]

theorem isDigit_of_le (hradix : radix ≤ 10) (h : IsDigit radix c) :
    '0' ≤ c ∧ c ≤ '9' ∧ c.toNat - '0'.toNat < radix := by
  obtain ⟨digit, hdigit, hlt⟩ := h
  unfold digitValue at hdigit
  split_ifs at hdigit with h0 ha hA hr hat hus
  · cases hdigit
    exact ⟨h0.1, h0.2, hlt⟩
  all_goals
    cases hdigit
    omega

theorem isOctalDigit_of (h : IsDigit 8 c) : isOctalDigit c = true := by
  obtain ⟨hlow, -, hlt⟩ := isDigit_of_le (by decide) h
  rw [isOctalDigit, Bool.and_eq_true, decide_eq_true_eq, decide_eq_true_eq]
  refine ⟨hlow, ?_⟩
  rw [char_le_iff] at hlow ⊢
  change c.toNat - 48 < 8 at hlt
  change c.toNat ≤ 56
  omega

theorem isBaseDigit_of_isDigit (h : c.isDigit = true) : isBaseDigit c = true := by
  rw [isBaseDigit, h]
  rfl

theorem isLower_iff {c : Char} : c.isLower = true ↔ 'a' ≤ c ∧ c ≤ 'z' := by
  change (decide (c.val ≥ 'a'.val) && decide (c.val ≤ 'z'.val)) = true ↔ _
  rw [Bool.and_eq_true, decide_eq_true_eq, decide_eq_true_eq]
  exact Iff.rfl

theorem isUpper_iff {c : Char} : c.isUpper = true ↔ 'A' ≤ c ∧ c ≤ 'Z' :=
  decide_eq_true_iff

theorem isHexDigit_of (h : IsDigit 16 c) :
    isHexDigit c = true ∧ isBaseDigit c = true := by
  obtain ⟨digit, hdigit, hlt⟩ := h
  unfold digitValue at hdigit
  split_ifs at hdigit with h0 ha hA h36 h36 hat hus
  · have hd := (isDigit_iff c).2 h0
    refine ⟨?_, isBaseDigit_of_isDigit hd⟩
    rw [isHexDigit, hd]
    rfl
  · cases hdigit
    have hf : c ≤ 'f' := by
      rw [char_le_iff] at ha ⊢
      change c.toNat - 97 + 10 < 16 at hlt
      change c.toNat ≤ 102
      omega
    have hlower : c.isLower = true := isLower_iff.2 ha
    refine ⟨?_, ?_⟩
    · rw [isHexDigit, decide_eq_true ha.1, decide_eq_true hf]
      simp
    · rw [isBaseDigit, hlower]
      simp
  · cases hdigit
    have hF : c ≤ 'F' := by
      rw [char_le_iff] at hA ⊢
      change c.toNat - 65 + 10 < 16 at hlt
      change c.toNat ≤ 70
      omega
    have hupper : c.isUpper = true := isUpper_iff.2 hA
    refine ⟨?_, ?_⟩
    · rw [isHexDigit, decide_eq_true hA.1, decide_eq_true hF]
      simp
    · rw [isBaseDigit, hupper]
      simp
  all_goals exact absurd (by decide) h36

/-! ## Texts that start with a digit -/

section

variable (inner : Nat → Peg.Rule Char ArithmeticExpr)

theorem lvalue_digit (h : c.isDigit = true) (s : List Char) :
    lvalue inner (c :: s) = none := by
  have hname : variableName (c :: s) = none := by
    rw [Char.isDigit_iff_toNat] at h
    have hne : ¬(c.isLower = true ∨ c.isUpper = true ∨ c = '_') := by
      rintro (hl | hu | rfl)
      · have hle : 97 ≤ c.toNat := (isLower_iff.1 hl).1
        change 48 ≤ c.toNat ∧ c.toNat ≤ 57 at h
        omega
      · have hle : 65 ≤ c.toNat := (isUpper_iff.1 hu).1
        change 48 ≤ c.toNat ∧ c.toNat ≤ 57 at h
        omega
      · exact absurd h (by decide)
    rw [variableName, if_neg hne]
  rw [lvalue, hname]

theorem prefixAtom_digit (h : c.isDigit = true) (s : List Char) :
    prefixAtom inner (c :: s) =
      (literalNumber (c :: s)).map fun (n, rest) => (ArithmeticExpr.literal n, rest) := by
  have hl := lvalue_digit inner h s
  have hassign : ∀ o, tryAssignment inner (c :: s) o = none := fun o => by
    rw [tryAssignment, hl]
    rfl
  have hne : ∀ d : Char, d.isDigit = false → c ≠ d := by
    rintro d hd rfl
    rw [h] at hd
    cases hd
  have hunary : ∀ d excluded op prec, d.isDigit = false →
      tryUnary inner d excluded op prec (c :: s) = none := fun d excluded op prec hd => by
    rw [tryUnary, if_neg fun hc => hne d hd hc.1]
  have hprefix : ∀ d op, d.isDigit = false →
      tryPrefixAssignment inner [d, d] op (c :: s) = none := fun d op hd => by
    rw [tryPrefixAssignment, expect, if_neg fun hc => hne d hd hc.symm]
    rfl
  have hpostfix : ∀ text op, tryPostfixAssignment inner text op (c :: s) = none :=
    fun text op => by
      rw [tryPostfixAssignment, hl]
      rfl
  have hparen : parenthesized inner (c :: s) = none := by
    unfold parenthesized
    split
    · next hc =>
      cases hc
      cases h
    · rfl
  rw [prefixAtom, hunary _ _ _ _ rfl, hunary _ _ _ _ rfl, hunary _ _ _ _ rfl,
    hunary _ _ _ _ rfl, hprefix _ _ rfl, hprefix _ _ rfl, hpostfix, hpostfix, hl, hparen,
    List.findSome?_eq_none_iff.2 fun o _ => hassign o]
  rw [Option.map_none, Option.none_or, Option.none_or, Option.none_or, Option.none_or,
    Option.none_or, Option.none_or, Option.none_or, Option.none_or, Option.none_or,
    Option.none_or, Option.or_none]

theorem climb_stop (h : s = [] ∨ ∃ x t, s = x :: t ∧ (x = 'x' ∨ x = 'X'))
    (minPrec n : Nat) (e : ArithmeticExpr) : climb inner minPrec n e s = (e, s) := by
  have hexpect : ∀ c text, c ≠ 'x' ∧ c ≠ 'X' → expect (c :: text) (blanks s) = none := by
    rintro c text ⟨hx, hX⟩
    rcases h with rfl | ⟨x, t, rfl, rfl | rfl⟩
    · rfl
    · exact if_neg hx
    · exact if_neg hX
  have hinfix : infixOperators.findSome? (tryInfix inner minPrec e s) = none := by
    rw [List.findSome?_eq_none_iff]
    intro o ho
    have htext : ∀ o ∈ infixOperators, ∀ prec text op right, o = .binary prec text op right →
        ∃ c rest, text = c :: rest ∧ c ≠ 'x' ∧ c ≠ 'X' := by
      simp [infixOperators]
    cases o with
    | binary prec text op right =>
      obtain ⟨c, rest, rfl, hc⟩ := htext _ ho _ _ _ _ rfl
      rw [tryInfix, hexpect c rest hc]
      exact ite_self none
    | conditional prec =>
      rw [tryInfix, hexpect '?' [] (by decide)]
      exact ite_self none
  cases n with
  | zero => rfl
  | succ n => rw [climb, hinfix]

end

theorem blanks_digit (h : c.isDigit = true) (s : List Char) :
    blanks (c :: s) = c :: s := by
  have hblank : ¬ ((c = ' ' || c = '\t' || c = '\n' || c = '\r') = true) := by
    simp only [Bool.or_eq_true, decide_eq_true_eq]
    rintro (((rfl | rfl) | rfl) | rfl) <;> exact absurd h (by decide)
  exact List.dropWhile_cons_of_neg hblank

variable {v : Int64}

theorem parse_of_literal (h : c.isDigit = true)
    (hv : literalNumber (c :: s) = some (v, [])) : parse (c :: s) = some (.literal v) := by
  have hexpr : infixParse ((c :: s).length + 1) 0 (c :: s) = some (.literal v, []) := by
    rw [infixParse, prefixAtom_digit _ h, hv]
    exact congrArg some (climb_stop _ (.inl rfl) _ _ _)
  rw [parse, if_neg (List.cons_ne_nil c s), blanks_digit h, hexpr]
  rfl

theorem parse_of_prefixed (h : c.isDigit = true) {t : List Char} {x : Char}
    (hx : x = 'x' ∨ x = 'X') (hv : literalNumber (c :: s) = some (v, x :: t)) :
    parse (c :: s) = none := by
  have hexpr : infixParse ((c :: s).length + 1) 0 (c :: s) = some (.literal v, x :: t) := by
    rw [infixParse, prefixAtom_digit _ h, hv]
    exact congrArg some (climb_stop _ (.inr ⟨x, t, rfl, hx⟩) _ _ _)
  have hrest : blanks (x :: t) ≠ [] := by
    rcases hx with rfl | rfl <;> exact List.cons_ne_nil _ _
  rw [parse, if_neg (List.cons_ne_nil c s), blanks_digit h, hexpr]
  exact if_neg hrest

theorem parse_of_none (h : c.isDigit = true)
    (hv : literalNumber (c :: s) = none) : parse (c :: s) = none := by
  have hexpr : infixParse ((c :: s).length + 1) 0 (c :: s) = none := by
    rw [infixParse, prefixAtom_digit _ h, hv]
    rfl
  rw [parse, if_neg (List.cons_ne_nil c s), blanks_digit h, hexpr]

/-! ## Notations -/

theorem literalNumber_base {b : List Char}
    (hb : decimalLiteral (b ++ '#' :: d) = some (v, '#' :: d))
    (hradix : v.toUInt64.toNat = radix) (hrange : 2 ≤ radix ∧ radix ≤ 64) (hd : d ≠ [])
    (hdigits : ∀ c ∈ d, isBaseDigit c = true) (h : digitsValue radix d = some n) :
    literalNumber (b ++ '#' :: d) = some (Int64.ofNat n, []) := by
  have hbase : baseLiteral (b ++ '#' :: d) = some (Int64.ofNat n, []) := by
    simp only [baseLiteral, hb, span_of_forall hdigits]
    cases d with
    | nil => exact absurd rfl hd
    | cons c d =>
      rw [hradix, parseShellLiteralNumber_eq hrange h]
      rfl
  rw [literalNumber, hbase]
  rfl

theorem decimalLiteral_zero (s : List Char) : decimalLiteral ('0' :: s) = none := rfl

theorem baseLiteral_zero (s : List Char) : baseLiteral ('0' :: s) = none := rfl

theorem literalNumber_hex {x : Char} (hx : x = 'x' ∨ x = 'X')
    (hd : d ≠ []) (h : digitsValue 16 d = some n) :
    literalNumber ('0' :: x :: d) =
      if n < 2 ^ 63 then some (Int64.ofNat n, []) else some (0, x :: d) := by
  have hdigits : ∀ c ∈ d, isHexDigit c = true := fun c hc =>
    (isHexDigit_of (isDigit_of_foldlM h c hc)).1
  have hoctal : octalLiteral ('0' :: x :: d) = some (0, x :: d) := by
    rcases hx with rfl | rfl <;> rfl
  have hhex : hexLiteral ('0' :: x :: d) =
      if n < 2 ^ 63 then some (Int64.ofNat n, []) else none := by
    rw [hexLiteral, if_pos hx, span_of_forall hdigits]
    dsimp only
    rw [fromStrRadix_eq hd h]
    split_ifs <;> rfl
  rw [literalNumber, baseLiteral_zero, hhex, hoctal]
  split_ifs <;> rfl

theorem literalNumber_octal (hd : d ≠ [])
    (h : digitsValue 8 d = some n) :
    literalNumber ('0' :: d) = if n < 2 ^ 63 then some (Int64.ofNat n, []) else none := by
  have hdigits : ∀ c ∈ d, isOctalDigit c = true := fun c hc =>
    isOctalDigit_of (isDigit_of_foldlM h c hc)
  have hhex : hexLiteral ('0' :: d) = none := by
    cases d with
    | nil => rfl
    | cons c d =>
      have hx : ¬(c = 'x' ∨ c = 'X') := by
        rintro (rfl | rfl)
        · exact absurd (hdigits 'x' List.mem_cons_self) (by decide)
        · exact absurd (hdigits 'X' List.mem_cons_self) (by decide)
      rw [hexLiteral, if_neg hx]
  have hzero : digitsValue 8 ('0' :: d) = some n := h
  rw [literalNumber, baseLiteral_zero, hhex, octalLiteral, span_of_forall hdigits]
  dsimp only
  rw [fromStrRadix_eq (List.cons_ne_nil _ _) hzero, decimalLiteral_zero]
  split_ifs <;> rfl

theorem parseDigits_eq (hd : d ≠ []) (h : digitsValue 10 d = some n) :
    parseDigits d = some n := by
  have hdigits : d.all Char.isDigit = true := List.all_eq_true.2 fun c hc => by
    obtain ⟨hlow, hhigh, -⟩ := isDigit_of_le (Nat.le_refl 10) (isDigit_of_foldlM h c hc)
    exact (isDigit_iff c).2 ⟨hlow, hhigh⟩
  have hfold : ∀ {s : List Char} {k m : Nat}, s.foldlM (stepValue 10) k = some m →
      s.foldl (fun n c => 10 * n + (c.toNat - '0'.toNat)) k = m := by
    intro s
    induction s with
    | nil =>
      intro k m h
      cases h
      rfl
    | cons c s ih =>
      intro k m h
      have hc := isDigit_of_foldlM h c List.mem_cons_self
      obtain ⟨hlow, hhigh, -⟩ := isDigit_of_le (Nat.le_refl 10) hc
      rw [List.foldlM_cons] at h
      obtain ⟨j, hj, hrest⟩ := Option.bind_eq_some_iff.1 h
      obtain ⟨digit, hdigit, -, rfl⟩ := stepValue_eq_some hj
      rw [digitValue, if_pos ⟨hlow, hhigh⟩] at hdigit
      cases hdigit
      exact ih hrest
  rw [parseDigits, if_pos ⟨hd, hdigits⟩, hfold h]

theorem literalNumber_decimal (hc : c ≠ '0')
    (h : digitsValue 10 (c :: d) = some n) :
    literalNumber (c :: d) = if n < 2 ^ 64 then some (Int64.ofNat n, []) else none := by
  have hdigits : ∀ a ∈ c :: d, '0' ≤ a ∧ a ≤ '9' := fun a ha => by
    obtain ⟨hlow, hhigh, -⟩ := isDigit_of_le (Nat.le_refl 10) (isDigit_of_foldlM h a ha)
    exact ⟨hlow, hhigh⟩
  have hspan : d.span Char.isDigit = (d, []) := span_of_forall fun a ha =>
    (isDigit_iff a).2 (hdigits a (List.mem_cons_of_mem c ha))
  have hfirst : '1' ≤ c ∧ c ≤ '9' := by
    obtain ⟨hlow, hhigh⟩ := hdigits c List.mem_cons_self
    refine ⟨?_, hhigh⟩
    rw [char_le_iff] at hlow ⊢
    have hne : c.toNat ≠ '0'.toNat := fun h => hc (Char.toNat_inj.1 h)
    change 48 ≤ c.toNat at hlow
    change c.toNat ≠ 48 at hne
    change 49 ≤ c.toNat
    omega
  have hdecimal : decimalLiteral (c :: d) =
      if n < 2 ^ 64 then some (Int64.ofNat n, []) else none := by
    have hparse : parseU64 (c :: d) = if n < 2 ^ 64 then some n else none := by
      have hplus : c ≠ '+' := by
        rintro rfl
        exact absurd hfirst.1 (by decide)
      unfold parseU64
      split
      · next hs =>
        cases hs
        exact absurd rfl hplus
      · rw [parseDigits_eq (List.cons_ne_nil c d) h, Option.bind_some]
    rw [decimalLiteral, if_pos hfirst, hspan]
    dsimp only
    rw [hparse]
    split_ifs <;> rfl
  have hbase : baseLiteral (c :: d) = none := by
    rw [baseLiteral, hdecimal]
    split_ifs <;> rfl
  have hhex : hexLiteral (c :: d) = none := by
    unfold hexLiteral
    split
    · next hs =>
      cases hs
      exact absurd rfl hc
    · rfl
  have hoctal : octalLiteral (c :: d) = none := by
    unfold octalLiteral
    split
    · next hs =>
      cases hs
      exact absurd rfl hc
    · rfl
  rw [literalNumber, hbase, hhex, hoctal, hdecimal]
  rfl

def Agree (value : Int64) (notations : List (List Char)) : Prop :=
  ∀ s ∈ notations, parse s = some (.literal value)

theorem parse_base {b : List Char}
    (hc : c.isDigit = true)
    (hb : decimalLiteral (c :: b ++ '#' :: d) = some (v, '#' :: d))
    (hradix : v.toUInt64.toNat = radix) (hrange : 2 ≤ radix ∧ radix ≤ 64) (hd : d ≠ [])
    (hdigits : ∀ c ∈ d, isBaseDigit c = true) (h : digitsValue radix d = some n) :
    parse (c :: b ++ '#' :: d) = some (.literal (Int64.ofNat n)) :=
  parse_of_literal hc (literalNumber_base hb hradix hrange hd hdigits h)

theorem agree_hex_iff (hd : d ≠ []) (h : digitsValue 16 d = some n) :
    Agree (Int64.ofNat n) ['0' :: 'x' :: d, '0' :: 'X' :: d, ['1', '6'] ++ '#' :: d] ↔
      n < 2 ^ 63 := by
  have hbase : parse (['1', '6'] ++ '#' :: d) = some (.literal (Int64.ofNat n)) :=
    parse_base rfl rfl rfl (by decide) hd
      (fun c hc => (isHexDigit_of (isDigit_of_foldlM h c hc)).2) h
  have hhex : ∀ x, x = 'x' ∨ x = 'X' →
      (parse ('0' :: x :: d) = some (.literal (Int64.ofNat n)) ↔ n < 2 ^ 63) := by
    intro x hx
    have hliteral := literalNumber_hex hx hd h
    split_ifs at hliteral with hn
    · exact iff_of_true (parse_of_literal rfl hliteral) hn
    · rw [parse_of_prefixed rfl hx hliteral]
      exact iff_of_false nofun hn
  constructor
  · intro hagree
    exact (hhex 'x' (.inl rfl)).1 (hagree _ List.mem_cons_self)
  · intro hn s hs
    simp only [List.mem_cons, List.not_mem_nil, or_false] at hs
    rcases hs with rfl | rfl | rfl
    · exact (hhex 'x' (.inl rfl)).2 hn
    · exact (hhex 'X' (.inr rfl)).2 hn
    · exact hbase

theorem agree_octal_iff (hd : d ≠ []) (h : digitsValue 8 d = some n) :
    Agree (Int64.ofNat n) ['0' :: d, ['8'] ++ '#' :: d] ↔ n < 2 ^ 63 := by
  have hdigits : ∀ c ∈ d, isBaseDigit c = true := fun c hc => by
    obtain ⟨hlow, hhigh, -⟩ := isDigit_of_le (by decide) (isDigit_of_foldlM h c hc)
    exact isBaseDigit_of_isDigit ((isDigit_iff c).2 ⟨hlow, hhigh⟩)
  have hbase : parse (['8'] ++ '#' :: d) = some (.literal (Int64.ofNat n)) :=
    parse_base rfl rfl rfl (by decide) hd hdigits h
  have hoctal : parse ('0' :: d) = some (.literal (Int64.ofNat n)) ↔ n < 2 ^ 63 := by
    have hliteral := literalNumber_octal hd h
    split_ifs at hliteral with hn
    · exact iff_of_true (parse_of_literal rfl hliteral) hn
    · rw [parse_of_none rfl hliteral]
      exact iff_of_false nofun hn
  constructor
  · intro hagree
    exact hoctal.1 (hagree _ List.mem_cons_self)
  · intro hn s hs
    simp only [List.mem_cons, List.not_mem_nil, or_false] at hs
    rcases hs with rfl | rfl
    · exact hoctal.2 hn
    · exact hbase

theorem agree_decimal_iff (hd : d ≠ [])
    (hzero : d = ['0'] ∨ d.head? ≠ some '0') (h : digitsValue 10 d = some n) :
    Agree (Int64.ofNat n) [d, ['1', '0'] ++ '#' :: d] ↔ n < 2 ^ 64 := by
  have hdigits : ∀ c ∈ d, c.isDigit = true := fun c hc => by
    obtain ⟨hlow, hhigh, -⟩ := isDigit_of_le (by decide) (isDigit_of_foldlM h c hc)
    exact (isDigit_iff c).2 ⟨hlow, hhigh⟩
  have hbase : parse (['1', '0'] ++ '#' :: d) = some (.literal (Int64.ofNat n)) :=
    parse_base rfl rfl rfl (by decide) hd (fun c hc => isBaseDigit_of_isDigit (hdigits c hc)) h
  have hdecimal : parse d = some (.literal (Int64.ofNat n)) ↔ n < 2 ^ 64 := by
    rcases hzero with rfl | hzero
    · cases h
      exact iff_of_true (by decide) (by decide)
    · cases d with
      | nil => exact absurd rfl hd
      | cons c d =>
        have hc : c ≠ '0' := fun hc => hzero (congrArg some hc)
        have hliteral := literalNumber_decimal hc h
        split_ifs at hliteral with hn
        · exact iff_of_true (parse_of_literal (hdigits c List.mem_cons_self) hliteral) hn
        · rw [parse_of_none (hdigits c List.mem_cons_self) hliteral]
          exact iff_of_false nofun hn
  constructor
  · intro hagree
    exact hdecimal.1 (hagree _ List.mem_cons_self)
  · intro hn s hs
    simp only [List.mem_cons, List.not_mem_nil, or_false] at hs
    rcases hs with rfl | rfl
    · exact hdecimal.2 hn
    · exact hbase

/-- **Number notations.** The notations of a digit string are read as the same number, its value
modulo `2 ^ 64`, exactly if the value is below `2 ^ 63` in base sixteen and eight, and below
`2 ^ 64` in base ten. -/
theorem literals_iff (d : List Char) (hd : d ≠ []) (n : Nat) :
    (digitsValue 16 d = some n →
      (Agree (Int64.ofNat n) ['0' :: 'x' :: d, '0' :: 'X' :: d, ['1', '6'] ++ '#' :: d] ↔
        n < 2 ^ 63)) ∧
    (digitsValue 8 d = some n →
      (Agree (Int64.ofNat n) ['0' :: d, ['8'] ++ '#' :: d] ↔ n < 2 ^ 63)) ∧
    ((d = ['0'] ∨ d.head? ≠ some '0') → digitsValue 10 d = some n →
      (Agree (Int64.ofNat n) [d, ['1', '0'] ++ '#' :: d] ↔ n < 2 ^ 64)) :=
  ⟨fun h => agree_hex_iff hd h, fun h => agree_octal_iff hd h,
    fun hzero h => agree_decimal_iff hd hzero h⟩

/-- `0xff` and `16#ff`. -/
theorem agree_ff : Agree (Int64.ofNat 255) ['0' :: 'x' :: ['f', 'f'], '0' :: 'X' :: ['f', 'f'],
      ['1', '6'] ++ '#' :: ['f', 'f']] :=
  ((literals_iff ['f', 'f'] (by decide) 255).1 (by decide)).2 (by decide)

/-- `0x8000000000000000` is no expression, `16#8000000000000000` is the least number. -/
theorem not_agree_min : ¬ Agree (Int64.ofNat (2 ^ 63))
      ['0' :: 'x' :: '8' :: List.replicate 15 '0', '0' :: 'X' :: '8' :: List.replicate 15 '0',
        ['1', '6'] ++ '#' :: '8' :: List.replicate 15 '0'] := by
  rw [agree_hex_iff (List.cons_ne_nil _ _) (by decide)]
  decide

end Seahaven.Arithmetic
