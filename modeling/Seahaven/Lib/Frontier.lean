import Mathlib.Order.Basic
import Mathlib.Data.List.Basic

/-!
# Frontiers of a preorder

A frontier keeps the maximal elements of a stream of elements of a preorder. An element already
below the frontier is skipped; any other is added, and what it dominates is dropped. Over any
stream the frontier generates the same lower set as the stream itself, and its members are
pairwise incomparable.
-/

namespace Frontier

variable {α : Type*} [Preorder α]

/-- Whether `x` is below a member of `l`. -/
def Below (l : List α) (x : α) : Prop := ∃ y ∈ l, x ≤ y

def IsAntichain (l : List α) : Prop := l.Pairwise fun x y => ¬ x ≤ y ∧ ¬ y ≤ x

theorem Below.mono {l : List α} {x y : α} (h : Below l y) (hxy : x ≤ y) : Below l x := by
  obtain ⟨z, hz, hyz⟩ := h
  exact ⟨z, hz, hxy.trans hyz⟩

theorem not_below_nil (x : α) : ¬ Below [] x := by
  rintro ⟨y, hy, -⟩
  exact List.not_mem_nil hy

variable [DecidableLE α]

instance (l : List α) (x : α) : Decidable (Below l x) := List.decidableBEx ..

/-- Add `x`, unless it is already covered, and drop what it covers. -/
def insert (l : List α) (x : α) : List α :=
  if Below l x then l else l.filter (fun y => ¬ y ≤ x) ++ [x]

def ofStream (xs : List α) : List α := xs.foldl insert []

/-- **One insertion.** What is below the new frontier is what was below the old one, and what is
below the inserted element: nothing is lost by the drop and nothing is gained by the skip. -/
theorem below_insert {l : List α} {x y : α} : Below (insert l x) y ↔ Below l y ∨ y ≤ x := by
  unfold insert
  split_ifs with hx
  · exact ⟨Or.inl, fun h => h.elim id fun hyx => hx.mono hyx⟩
  · constructor
    · rintro ⟨z, hz, hyz⟩
      rcases List.mem_append.1 hz with hz | hz
      · exact Or.inl ⟨z, (List.mem_filter.1 hz).1, hyz⟩
      · exact Or.inr (List.mem_singleton.1 hz ▸ hyz)
    · intro h
      by_cases hyx : y ≤ x
      · exact ⟨x, by simp, hyx⟩
      · obtain ⟨z, hz, hyz⟩ := h.resolve_right hyx
        -- a member above `y` survives the drop: were it below `x`, so would `y` be
        have hzx : ¬ z ≤ x := fun hzx => hyx (hyz.trans hzx)
        exact ⟨z, List.mem_append_left _ (List.mem_filter.2 ⟨hz, by simpa using hzx⟩), hyz⟩

theorem IsAntichain.insert {l : List α} (h : IsAntichain l) (x : α) :
    IsAntichain (Frontier.insert l x) := by
  unfold Frontier.insert
  split_ifs with hx
  · exact h
  · refine List.pairwise_append.2 ⟨h.filter _, List.pairwise_singleton _ _, ?_⟩
    intro y hy z hz
    rw [List.mem_singleton.1 hz]
    obtain ⟨hy, hyx⟩ := List.mem_filter.1 hy
    exact ⟨by simpa using hyx, fun hxy => hx ⟨y, hy, hxy⟩⟩

theorem below_foldl {l xs : List α} {y : α} :
    Below (xs.foldl insert l) y ↔ Below l y ∨ Below xs y := by
  induction xs generalizing l with
  | nil => simp [not_below_nil]
  | cons x xs ih =>
    rw [List.foldl_cons, ih, below_insert, or_assoc]
    simp [Below]

theorem IsAntichain.foldl {l : List α} (h : IsAntichain l) (xs : List α) :
    IsAntichain (xs.foldl Frontier.insert l) := by
  induction xs generalizing l with
  | nil => exact h
  | cons x xs ih => exact ih (h.insert x)

/-- **A whole stream.** The frontier has the lower set of the stream. -/
theorem below_ofStream {xs : List α} {y : α} : Below (ofStream xs) y ↔ Below xs y := by
  rw [ofStream, below_foldl]
  exact or_iff_right (not_below_nil y)

theorem isAntichain_ofStream (xs : List α) : IsAntichain (ofStream xs) :=
  IsAntichain.foldl List.Pairwise.nil xs

end Frontier
