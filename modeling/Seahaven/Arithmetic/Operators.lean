import Mathlib.Data.Int.Basic
import Mathlib.Tactic.Ring
import Seahaven.Arithmetic.Semantics

/-!
# The operators

The operators compute on numbers of 64 bits what they compute on the integers, modulo `2 ^ 64`.

1. `BinaryOperator.exact`, `UnaryOperator.exact`: the operators on the integers.
2. `powLoop_ofInt`: the loop of the power.
3. `binaryValue_ofInt`, `unaryValue_ofInt`: no operator panics or overflows.
-/

namespace Seahaven.Arithmetic

open Shell

/-! ## The operators on the integers -/

def truth (p : Prop) [Decidable p] : Int := if p then 1 else 0

def lastBits (a : Int) : Nat := (a % 2 ^ 64).toNat

/-- A binary operator on the integers, where it has a value. A shift is by the last six bits. -/
def BinaryOperator.exact (op : BinaryOperator) (a b : Int) : Option Int :=
  match op with
  | .power => if 0 ≤ b then some (a ^ b.toNat) else none
  | .multiply => some (a * b)
  | .divide => if b = 0 then none else some (a.tdiv b)
  | .modulo => if b = 0 then none else some (a.tmod b)
  | .comma => some b
  | .add => some (a + b)
  | .subtract => some (a - b)
  | .shiftLeft => some (a * 2 ^ (b % 64).toNat)
  | .shiftRight => some (a / 2 ^ (b % 64).toNat)
  | .lessThan => some (truth (a < b))
  | .lessThanOrEqualTo => some (truth (a ≤ b))
  | .greaterThan => some (truth (b < a))
  | .greaterThanOrEqualTo => some (truth (b ≤ a))
  | .equals => some (truth (a = b))
  | .notEquals => some (truth (a ≠ b))
  | .bitwiseAnd => some (lastBits a &&& lastBits b : Nat)
  | .bitwiseXor => some (lastBits a ^^^ lastBits b : Nat)
  | .bitwiseOr => some (lastBits a ||| lastBits b : Nat)
  | .logicalAnd => some (truth (a ≠ 0 ∧ b ≠ 0))
  | .logicalOr => some (truth (a ≠ 0 ∨ b ≠ 0))

/-- A unary operator on the integers. -/
def UnaryOperator.exact (op : UnaryOperator) (a : Int) : Int :=
  match op with
  | .unaryPlus => a
  | .unaryMinus => -a
  | .bitwiseNot => -a - 1
  | .logicalNot => truth (a = 0)

def binaryValue (op : BinaryOperator) (left right : Int64) : Except Stop Int64 :=
  match shortCircuit op left with
  | some v => .ok v
  | none => combine op left right

theorem evaluate_binaryOp_literal [Casing] [Getters] (op : BinaryOperator) (a b : Int64) (d : Nat) :
    evaluate (.binaryOp op (.literal a) (.literal b), d) = Op.check (binaryValue op a b) := by
  rw [evaluate_binaryOp, evaluate_literal, evaluate_literal]
  change afterLeft op (pure b) a = _
  unfold afterLeft binaryValue
  cases shortCircuit op a <;> rfl

/-! ## Bits -/

theorem toInt_eq (a : Int64) :
    a.toInt = if 2 * a.toUInt64.toNat < 2 ^ 64 then (a.toUInt64.toNat : Int)
      else a.toUInt64.toNat - 2 ^ 64 := BitVec.toInt_eq_toNat_cond a.toBitVec

theorem lastBits_toInt (a : Int64) : lastBits a.toInt = a.toBitVec.toNat := by
  have ha := toInt_eq a
  have hlt := a.toUInt64.toNat_lt
  change (a.toInt % 2 ^ 64).toNat = a.toUInt64.toNat
  split_ifs at ha <;> omega

theorem ofBitVec_toNat (v : BitVec 64) : Int64.ofBitVec v = Int64.ofInt (v.toNat : Nat) := by
  change _ = Int64.ofBitVec (BitVec.ofInt 64 v.toNat)
  rw [BitVec.ofInt_natCast, BitVec.ofNat_toNat, BitVec.setWidth_eq]

/-! ## The power -/

theorem powLoop_ofInt (exponent : Nat) : ∀ base result : Int,
    powLoop (Int64.ofInt base) exponent (Int64.ofInt result) =
      Int64.ofInt (result * base ^ exponent) := by
  induction exponent using Nat.strong_induction_on with
  | _ exponent ih =>
    intro base result
    rw [powLoop]
    split_ifs with hzero hodd
    · rw [hzero, pow_zero, mul_one]
    · rw [← Int64.ofInt_mul, ← Int64.ofInt_mul, ih _ (by omega)]
      have hexponent : exponent = 2 * (exponent / 2) + 1 := by omega
      conv_rhs => rw [hexponent, pow_succ, pow_mul]
      congr 1
      ring
    · rw [← Int64.ofInt_mul, ih _ (by omega)]
      have hexponent : exponent = 2 * (exponent / 2) := by omega
      conv_rhs => rw [hexponent, pow_mul]
      congr 2
      ring

theorem wrappingPow_ofInt (base : Int64) {exponent : Int64} (h : 0 ≤ exponent.toInt) :
    wrappingPow base exponent.toUInt64 = Int64.ofInt (base.toInt ^ exponent.toInt.toNat) := by
  have hexponent : exponent.toUInt64.toNat = exponent.toInt.toNat := by
    have hcond := toInt_eq exponent
    have hlt := exponent.toUInt64.toNat_lt
    split_ifs at hcond <;> omega
  have hloop := powLoop_ofInt exponent.toInt.toNat base.toInt 1
  rw [Int64.ofInt_toInt, one_mul] at hloop
  rw [wrappingPow, hexponent]
  exact hloop

/-! ## Shifts -/

theorem toNat_mod_64 (b : Int64) : b.toUInt64.toUInt32.toNat % 64 = (b.toInt % 64).toNat := by
  have hb := toInt_eq b
  rw [UInt64.toNat_toUInt32]
  split_ifs at hb <;> omega

theorem wrappingShl_ofInt (a b : Int64) :
    wrappingShl a b.toUInt64.toUInt32 = Int64.ofInt (a.toInt * 2 ^ (b.toInt % 64).toNat) := by
  rw [wrappingShl, toNat_mod_64]
  generalize (b.toInt % 64).toNat = k
  have hpow : BitVec.ofInt 64 (2 ^ k) = BitVec.twoPow 64 k := by
    have hcast : (2 : Int) ^ k = ((2 ^ k : Nat) : Int) := by norm_cast
    rw [hcast, BitVec.ofInt_natCast, ← BitVec.toNat_inj, BitVec.toNat_ofNat, BitVec.toNat_twoPow]
  change _ = Int64.ofBitVec (BitVec.ofInt 64 (a.toBitVec.toInt * 2 ^ k))
  rw [BitVec.shiftLeft_eq_mul_twoPow, BitVec.ofInt_mul, BitVec.ofInt_toInt, hpow]

theorem wrappingShr_ofInt (a b : Int64) :
    wrappingShr a b.toUInt64.toUInt32 = Int64.ofInt (a.toInt / 2 ^ (b.toInt % 64).toNat) := by
  rw [wrappingShr, toNat_mod_64]
  generalize (b.toInt % 64).toNat = k
  have hshift : a.toBitVec.toInt / 2 ^ k = (a.toBitVec.sshiftRight k).toInt := by
    rw [BitVec.toInt_sshiftRight, Int.shiftRight_eq_div_pow]
    norm_cast
  change _ = Int64.ofBitVec (BitVec.ofInt 64 (a.toBitVec.toInt / 2 ^ k))
  rw [hshift, BitVec.ofInt_toInt]

/-! ## The operators -/

theorem div_ofInt (a b : Int64) : a / b = Int64.ofInt (a.toInt.tdiv b.toInt) := by
  rw [← Int64.toInt_inj, Int64.toInt_div, Int64.toInt_ofInt]

theorem rem_ofInt (a b : Int64) : a % b = Int64.ofInt (a.toInt.tmod b.toInt) := by
  rw [← Int64.toInt_mod, Int64.ofInt_toInt]

theorem boolToI64_ofInt {p q : Prop} [Decidable p] [Decidable q] (h : p ↔ q) :
    boolToI64 p = Int64.ofInt (truth q) := by
  unfold boolToI64 truth
  simp only [decide_eq_true_eq, h]
  split_ifs <;> rfl

theorem eq_zero_iff (a : Int64) : a = 0 ↔ a.toInt = 0 := by
  rw [← Int64.toInt_inj]
  rfl

theorem nonneg_iff (a : Int64) : 0 ≤ a ↔ 0 ≤ a.toInt := by
  rw [Int64.le_iff_toInt_le]
  rfl

/-- **Binary operators.** Where an operator has a value on the integers, it yields that value modulo
`2 ^ 64`. -/
theorem binaryValue_ofInt {op : BinaryOperator} {a b : Int64} {n : Int}
    (h : op.exact a.toInt b.toInt = some n) : binaryValue op a b = .ok (Int64.ofInt n) := by
  cases op with
  | power =>
    simp only [BinaryOperator.exact] at h
    split_ifs at h with hb
    cases h
    change (if 0 ≤ b then _ else _) = _
    rw [if_pos ((nonneg_iff b).2 hb), wrappingPow_ofInt a hb]
  | divide =>
    simp only [BinaryOperator.exact] at h
    split_ifs at h with hb
    cases h
    have hne : b ≠ 0 := fun h => hb ((eq_zero_iff b).1 h)
    change (if b = 0 then _ else wrappingDiv a b) = _
    rw [if_neg hne, wrappingDiv, if_neg hne, div_ofInt]
  | modulo =>
    simp only [BinaryOperator.exact] at h
    split_ifs at h with hb
    cases h
    have hne : b ≠ 0 := fun h => hb ((eq_zero_iff b).1 h)
    change (if b = 0 then _ else wrappingRem a b) = _
    rw [if_neg hne, wrappingRem, if_neg hne, rem_ofInt]
  | multiply =>
    cases h
    rw [Int64.ofInt_mul, Int64.ofInt_toInt, Int64.ofInt_toInt]
    rfl
  | comma =>
    cases h
    rw [Int64.ofInt_toInt]
    rfl
  | add =>
    cases h
    rw [Int64.ofInt_add, Int64.ofInt_toInt, Int64.ofInt_toInt]
    rfl
  | subtract =>
    cases h
    rw [Int64.ofInt_sub, Int64.ofInt_toInt, Int64.ofInt_toInt]
    rfl
  | shiftLeft =>
    cases h
    exact congrArg _ (wrappingShl_ofInt a b)
  | shiftRight =>
    cases h
    exact congrArg _ (wrappingShr_ofInt a b)
  | lessThan =>
    cases h
    exact congrArg _ (boolToI64_ofInt Int64.lt_iff_toInt_lt)
  | lessThanOrEqualTo =>
    cases h
    exact congrArg _ (boolToI64_ofInt Int64.le_iff_toInt_le)
  | greaterThan =>
    cases h
    exact congrArg _ (boolToI64_ofInt Int64.lt_iff_toInt_lt)
  | greaterThanOrEqualTo =>
    cases h
    exact congrArg _ (boolToI64_ofInt Int64.le_iff_toInt_le)
  | equals =>
    cases h
    exact congrArg _ (boolToI64_ofInt Int64.toInt_inj.symm)
  | notEquals =>
    cases h
    exact congrArg _ (boolToI64_ofInt (not_congr Int64.toInt_inj.symm))
  | bitwiseAnd =>
    cases h
    rw [lastBits_toInt, lastBits_toInt, ← BitVec.toNat_and, ← ofBitVec_toNat]
    rfl
  | bitwiseXor =>
    cases h
    rw [lastBits_toInt, lastBits_toInt, ← BitVec.toNat_xor, ← ofBitVec_toNat]
    rfl
  | bitwiseOr =>
    cases h
    rw [lastBits_toInt, lastBits_toInt, ← BitVec.toNat_or, ← ofBitVec_toNat]
    rfl
  | logicalAnd =>
    cases h
    unfold binaryValue shortCircuit
    dsimp only
    by_cases ha : a = 0
    · rw [if_pos ha]
      refine congrArg Except.ok (boolToI64_ofInt (p := False) ?_)
      simp [(eq_zero_iff a).1 ha]
    · rw [if_neg ha]
      refine congrArg Except.ok (boolToI64_ofInt ?_)
      rw [Ne, eq_zero_iff b]
      exact (and_iff_right (fun h => ha ((eq_zero_iff a).2 h))).symm
  | logicalOr =>
    cases h
    unfold binaryValue shortCircuit
    dsimp only
    by_cases ha : a ≠ 0
    · rw [if_pos ha]
      refine congrArg Except.ok (boolToI64_ofInt (p := True) ?_)
      exact iff_of_true trivial (.inl fun h => ha ((eq_zero_iff a).2 h))
    · rw [if_neg ha]
      refine congrArg Except.ok (boolToI64_ofInt ?_)
      rw [Ne, eq_zero_iff b]
      exact (or_iff_right (fun h => ha fun ha => h ((eq_zero_iff a).1 ha))).symm

theorem binaryValue_error {op : BinaryOperator} {a b : Int64}
    (h : op.exact a.toInt b.toInt = none) :
    binaryValue op a b =
      .error (.error (if op = .power then .negativeExponent else .divideByZero)) := by
  cases op with
  | power =>
    simp only [BinaryOperator.exact] at h
    split_ifs at h with hb
    change (if 0 ≤ b then _ else _) = _
    rw [if_neg (fun h => hb ((nonneg_iff b).1 h)), if_pos rfl]
  | divide =>
    simp only [BinaryOperator.exact] at h
    split_ifs at h with hb
    change (if b = 0 then _ else wrappingDiv a b) = _
    rw [if_pos ((eq_zero_iff b).2 hb), if_neg nofun]
  | modulo =>
    simp only [BinaryOperator.exact] at h
    split_ifs at h with hb
    change (if b = 0 then _ else wrappingRem a b) = _
    rw [if_pos ((eq_zero_iff b).2 hb), if_neg nofun]
  | _ => cases h

/-- **Unary operators.** They yield what they yield on the integers, modulo `2 ^ 64`. -/
theorem unaryValue_ofInt (op : UnaryOperator) (a : Int64) :
    unaryValue op a = Int64.ofInt (op.exact a.toInt) := by
  cases op with
  | unaryPlus => exact (Int64.ofInt_toInt a).symm
  | unaryMinus =>
    rw [UnaryOperator.exact, Int64.ofInt_neg, Int64.ofInt_toInt]
    rfl
  | bitwiseNot =>
    rw [← Int64.toInt_inj, UnaryOperator.exact, Int64.toInt_ofInt]
    exact Int64.toInt_not a
  | logicalNot => exact boolToI64_ofInt (eq_zero_iff a)

end Seahaven.Arithmetic
