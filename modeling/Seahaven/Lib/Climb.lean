import Mathlib.Data.List.Infix
import Mathlib.Data.List.Count

/-!
# Walks up and down a tree of names

A walk below a root takes steps: it stays, climbs, or descends to a name. It fails where it would
climb above the root.

1. `walk`: the place a walk arrives at.
2. `isSome_walk`: a walk arrives exactly when no beginning of it climbs more often than it
   descends and its start allows.
-/

namespace Climb

/-- A step of a walk. -/
inductive Step (α : Type*)
  | stay
  | up
  | down (a : α)
  deriving DecidableEq

variable {α : Type*}

def Step.isDown : Step α → Bool
  | .down _ => true
  | _ => false

def Step.isUp : Step α → Bool
  | .up => true
  | _ => false

/-- Where a walk from `dir` arrives, if it never climbs above the root. -/
def walk : List α → List (Step α) → Option (List α)
  | dir, [] => some dir
  | dir, .stay :: s => walk dir s
  | dir, .up :: s => if dir = [] then none else walk dir.dropLast s
  | dir, .down a :: s => walk (dir ++ [a]) s

variable {dir : List α} {s : List (Step α)}

theorem walk_append {t : List (Step α)} :
    walk dir (s ++ t) = (walk dir s).bind fun d => walk d t := by
  induction s generalizing dir with
  | nil => rfl
  | cons x s ih =>
    cases x with
    | stay => exact ih
    | down a => exact ih
    | up =>
      rw [List.cons_append, walk, walk]
      split_ifs
      · rfl
      · exact ih

theorem walk_up (p q : List α) : walk (p ++ q) (List.replicate q.length .up) = some p := by
  induction q using List.reverseRecOn with
  | nil => simp [walk]
  | append_singleton q a ih =>
    rw [List.length_append, List.length_singleton, List.replicate_succ, walk,
      if_neg (by simp), ← List.append_assoc, List.dropLast_concat]
    exact ih

theorem walk_down (p q : List α) : walk p (q.map .down) = some (p ++ q) := by
  induction q generalizing p with
  | nil => simp [walk]
  | cons a q ih =>
    rw [List.map_cons, walk, ih, List.append_assoc, List.singleton_append]

/-- No beginning of the walk climbs more often than it descends and `depth` allows. -/
def Allowed (depth : ℕ) (s : List (Step α)) : Prop :=
  ∀ t, t <+: s → t.countP Step.isUp ≤ depth + t.countP Step.isDown

theorem allowed_nil {depth : ℕ} : Allowed depth ([] : List (Step α)) := fun t ht => by
  rw [List.prefix_nil.1 ht]
  exact Nat.zero_le _

theorem allowed_cons {depth : ℕ} {x : Step α} : Allowed depth (x :: s) ↔
    ∀ t, t <+: s → (x :: t).countP Step.isUp ≤ depth + (x :: t).countP Step.isDown := by
  constructor
  · exact fun h t ht => h _ (List.cons_prefix_cons.2 ⟨rfl, ht⟩)
  · intro h t ht
    cases t with
    | nil => exact Nat.zero_le _
    | cons y t =>
      obtain ⟨rfl, htail⟩ := List.cons_prefix_cons.1 ht
      exact h t htail

theorem allowed_stay {depth : ℕ} : Allowed depth (.stay :: s) ↔ Allowed depth s := by
  rw [allowed_cons]
  simp [Allowed, Step.isUp, Step.isDown]

theorem allowed_down {depth : ℕ} {a : α} :
    Allowed depth (.down a :: s) ↔ Allowed (depth + 1) s := by
  rw [allowed_cons]
  simp [Allowed, List.countP_cons, Step.isUp, Step.isDown, Nat.add_assoc, Nat.add_comm 1]

theorem allowed_up {depth : ℕ} : Allowed depth (.up :: s) ↔ 0 < depth ∧ Allowed (depth - 1) s := by
  rw [allowed_cons]
  constructor
  · intro h
    have hpos : 1 ≤ depth := by simpa [Step.isUp, Step.isDown] using h [] List.nil_prefix
    refine ⟨hpos, fun t ht => ?_⟩
    have := h t ht
    simp only [List.countP_cons, Step.isUp, Step.isDown, if_true, Bool.false_eq_true, if_false]
      at this
    omega
  · rintro ⟨hpos, h⟩ t ht
    have := h t ht
    simp only [List.countP_cons, Step.isUp, Step.isDown, if_true, Bool.false_eq_true, if_false]
    omega

/-- **Arriving.** A walk arrives exactly when it is allowed where it starts. -/
theorem isSome_walk : (walk dir s).isSome = true ↔ Allowed dir.length s := by
  induction s generalizing dir with
  | nil => exact iff_of_true rfl allowed_nil
  | cons x s ih =>
    cases x with
    | stay => rw [walk, allowed_stay, ih]
    | down a => rw [walk, allowed_down, ih, List.length_append, List.length_singleton]
    | up =>
      rw [walk, allowed_up]
      split_ifs with hdir
      · simp [hdir]
      · rw [ih, List.length_dropLast]
        exact (and_iff_right (List.length_pos_iff.2 hdir)).symm

end Climb
