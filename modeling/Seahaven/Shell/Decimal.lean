import Mathlib.Tactic.SplitIfs
import Seahaven.Shell.Variables

/-!
# Decimal numbers

`to_string` of a number is what `parse` reads back, for the signed and for the unsigned numbers of
64 bits.
-/

namespace Seahaven.Shell

/-- The range of `i64`. -/
def IsI64 (n : Int) : Prop := -2 ^ 63 ≤ n ∧ n < 2 ^ 63

theorem parseDigits_toDigits (n : Nat) : parseDigits (Nat.toDigits 10 n) = some n := by
  have hdigits : ∀ c ∈ Nat.toDigits 10 n, c.isDigit = true := fun c hc =>
    Nat.isDigit_of_mem_toDigits (by decide) (by decide) hc
  have hvalue : Nat.ofDigitChars 10 (Nat.toDigits 10 n) 0 = n :=
    Nat.ofDigitChars_toDigits (by decide) (by decide)
  rw [Nat.ofDigitChars_eq_foldl] at hvalue
  rw [parseDigits, if_pos ⟨Nat.toDigits_ne_nil, List.all_eq_true.2 hdigits⟩, hvalue]

theorem parse_toDigits (n : Nat) :
    parseI64 (Nat.toDigits 10 n) = (if n < 2 ^ 63 then some (n : Int) else none) ∧
      parseU64 (Nat.toDigits 10 n) = (if n < 2 ^ 64 then some n else none) := by
  have hparse := parseDigits_toDigits n
  have hdigit : ∀ c ∈ Nat.toDigits 10 n, c.isDigit = true := fun c hc =>
    Nat.isDigit_of_mem_toDigits (by decide) (by decide) hc
  generalize Nat.toDigits 10 n = s at hparse hdigit
  constructor
  · unfold parseI64
    split
    · cases hdigit '-' List.mem_cons_self
    · cases hdigit '+' List.mem_cons_self
    · rw [hparse, Option.bind_some]
  · unfold parseU64
    split
    · cases hdigit '+' List.mem_cons_self
    · rw [hparse, Option.bind_some]

theorem i64ToString_ofNat (n : Nat) : i64ToString n = Nat.toDigits 10 n := by
  rw [i64ToString, Int.toString_eq_repr, Int.repr_eq_if, if_pos (Int.natCast_nonneg n),
    Int.toNat_natCast, Nat.toList_repr]

theorem i64ToString_neg {n : Nat} (hn : n ≠ 0) :
    i64ToString (-(n : Int)) = '-' :: Nat.toDigits 10 n := by
  rw [i64ToString, Int.toString_eq_repr, Int.repr_eq_if, if_neg (by omega), Int.neg_neg,
    Int.toNat_natCast, String.toList_append, Nat.toList_repr]
  rfl

theorem parseI64_i64ToString {n : Int} (h : IsI64 n) : parseI64 (i64ToString n) = some n := by
  obtain ⟨hlow, hhigh⟩ := h
  rcases Int.eq_nat_or_neg n with ⟨m, rfl | rfl⟩
  · rw [i64ToString_ofNat, (parse_toDigits m).1, if_pos (by omega)]
  · by_cases hm : m = 0
    · subst hm
      rfl
    · rw [i64ToString_neg hm, parseI64, parseDigits_toDigits, Option.bind_some, if_pos (by omega)]

theorem isI64_bind {r : Option Nat} {f : Nat → Option Int}
    (h : ∀ n m, f n = some m → IsI64 m) : IsI64 ((r.bind f).getD 0) := by
  have hzero : IsI64 0 := ⟨by decide, by decide⟩
  cases r with
  | none => exact hzero
  | some n =>
    rw [Option.bind_some]
    cases hf : f n with
    | none => exact hzero
    | some m => exact h n m hf

theorem isI64_parseI64 (s : List Char) : IsI64 ((parseI64 s).getD 0) := by
  have hpositive : ∀ (n : Nat) (m : Int),
      (if n < 2 ^ 63 then some (n : Int) else none) = some m → IsI64 m := by
    intro n m h
    split_ifs at h
    cases h
    exact ⟨by omega, by omega⟩
  unfold parseI64
  split
  · refine isI64_bind fun n m h => ?_
    split_ifs at h
    cases h
    exact ⟨by omega, by omega⟩
  · exact isI64_bind hpositive
  · exact isI64_bind hpositive

end Seahaven.Shell
