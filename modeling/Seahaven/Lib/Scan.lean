import Mathlib.Data.List.Basic
import Mathlib.Order.Basic
import Mathlib.Order.Nat

/-!
# Scans

A scanner goes from place to place and answers something at each, until it comes to a place where it
stops. Each place is smaller than the one before it.

1. `results` and `stop`: what a scan answers from a place on, and the place where it stops.
2. `length_results`: it answers no more often than its place is large.
-/

/-- A scanner over the places `C` that answers `R`. -/
structure Scanner (C R : Type*) where
  next : C → Option (R × C)
  size : C → ℕ
  next_lt : ∀ {c r c'}, next c = some (r, c') → size c' < size c

namespace Scanner

variable {C R : Type*} (S : Scanner C R)

/-- The answers from a place on. -/
def results (c : C) : List R :=
  match _h : S.next c with
  | none => []
  | some (r, c') => r :: results c'
  termination_by S.size c
  decreasing_by exact S.next_lt _h

/-- The place where a scan stops. -/
def stop (c : C) : C :=
  match _h : S.next c with
  | none => c
  | some (_, c') => stop c'
  termination_by S.size c
  decreasing_by exact S.next_lt _h

variable {S} {c c' : C} {r : R}

theorem results_of_none (h : S.next c = none) : S.results c = [] := by
  rw [results]
  split
  · rfl
  · rename_i h'
    cases h.symm.trans h'

theorem results_of_some (h : S.next c = some (r, c')) : S.results c = r :: S.results c' := by
  rw [results]
  split
  · rename_i h'
    cases h.symm.trans h'
  · rename_i h'
    cases h.symm.trans h'
    rfl

theorem stop_of_none (h : S.next c = none) : S.stop c = c := by
  rw [stop]
  split
  · rfl
  · rename_i h'
    cases h.symm.trans h'

theorem stop_of_some (h : S.next c = some (r, c')) : S.stop c = S.stop c' := by
  rw [stop]
  split
  · rename_i h'
    cases h.symm.trans h'
  · rename_i h'
    cases h.symm.trans h'
    rfl

theorem induction_on {P : C → Prop} (c : C) (stopped : ∀ c, S.next c = none → P c)
    (step : ∀ c r c', S.next c = some (r, c') → P c' → P c) : P c := by
  induction hn : S.size c using Nat.strongRecOn generalizing c with
  | ind n ih =>
    cases h : S.next c with
    | none => exact stopped c h
    | some next => exact step c next.1 next.2 h (ih _ (hn ▸ S.next_lt h) _ rfl)

theorem length_results (c : C) : (S.results c).length ≤ S.size c := by
  induction c using S.induction_on with
  | stopped c h =>
    rw [results_of_none h]
    exact Nat.zero_le _
  | step c r c' h ih =>
    rw [results_of_some h, List.length_cons]
    exact Nat.succ_le_of_lt (Nat.lt_of_le_of_lt ih (S.next_lt h))

theorem le_stop {f : C → ℕ} (hf : ∀ {c r c'}, S.next c = some (r, c') → f c ≤ f c') (c : C) :
    f c ≤ f (S.stop c) := by
  induction c using S.induction_on with
  | stopped c h => rw [stop_of_none h]
  | step c r c' h ih =>
    rw [stop_of_some h]
    exact Nat.le_trans (hf h) ih

end Scanner
