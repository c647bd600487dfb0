import Mathlib.Data.List.Basic

/-!
# Joined lists

Lists that are joined with one separator each, and the same lists joined with others that are no
longer.

1. `intercalate_append`: the join of two parts, the first of which goes on with the second.
2. `intercalate_eq_iff`: when two joins of one list agree.
3. `flatMap_eq_iff`: two concatenations, the parts of one of which are no longer than those of the
   other, agree part by part.
-/

namespace Joins

variable {α β : Type}

/-! ## Joins of parts -/

theorem intercalate_append (sep : List α) (ls : List (List α)) (last first : List α)
    (ms : List (List α)) :
    List.intercalate sep (ls ++ (last ++ first) :: ms) =
      List.intercalate sep (ls ++ [last]) ++ List.intercalate sep (first :: ms) := by
  induction ls with
  | nil =>
    cases ms with
    | nil => simp
    | cons m ms => simp [List.intercalate_cons_cons]
  | cons l ls ih =>
    have hleft : ∀ x (xs : List (List α)), List.intercalate sep (l :: (ls ++ x :: xs)) =
        l ++ sep ++ List.intercalate sep (ls ++ x :: xs) := by
      intro x xs
      rw [List.intercalate_cons_of_ne_nil (by simp)]
    rw [List.cons_append, List.cons_append, hleft, hleft, ih]
    simp

theorem length_intercalate (sep : List α) (ls : List (List α)) :
    (List.intercalate sep ls).length = ls.flatten.length + sep.length * (ls.length - 1) := by
  induction ls with
  | nil => simp
  | cons l ls ih =>
    cases ls with
    | nil => simp
    | cons m ls =>
      rw [List.intercalate_cons_cons, List.length_append, List.length_append, ih]
      simp only [List.flatten_cons, List.length_append, List.length_cons, Nat.add_sub_cancel,
        Nat.mul_succ]
      omega

/-! ## Two joins of one list -/

theorem length_intercalate_le {e : List α} (he : e.length ≤ 1) (a : α) (ls : List (List α)) :
    (List.intercalate e ls).length ≤ (List.intercalate [a] ls).length := by
  rw [length_intercalate, length_intercalate]
  exact Nat.add_le_add_left (Nat.mul_le_mul_right _ he) _

theorem intercalate_eq_iff {e : List α} (he : e.length ≤ 1) (a : α) (ls : List (List α)) :
    List.intercalate [a] ls = List.intercalate e ls ↔ (2 ≤ ls.length → e = [a]) := by
  constructor
  · intro heq htwo
    match ls, htwo with
    | l :: m :: ls, _ =>
      have hlen := congrArg List.length heq
      rw [length_intercalate, length_intercalate] at hlen
      have hone : e.length = 1 := by
        simp only [List.length_cons, Nat.add_sub_cancel, List.length_nil] at hlen
        have hmul : (0 + 1) * (ls.length + 1) = e.length * (ls.length + 1) :=
          Nat.add_left_cancel hlen
        exact (Nat.eq_of_mul_eq_mul_right (Nat.succ_pos _) hmul).symm
      obtain ⟨b, rfl⟩ := List.length_eq_one_iff.1 hone
      rw [List.intercalate_cons_cons, List.intercalate_cons_cons, List.append_assoc,
        List.append_assoc] at heq
      have hcons := List.append_cancel_left heq
      rw [List.singleton_append, List.singleton_append] at hcons
      rw [(List.cons.inj hcons).1]
  · intro hsame
    match ls with
    | [] => rfl
    | [l] => simp
    | l :: m :: ls => rw [hsame (by simp)]

/-! ## Concatenations -/

theorem length_flatMap_le {f g : β → List α} {l : List β}
    (hle : ∀ x ∈ l, (g x).length ≤ (f x).length) :
    (l.flatMap g).length ≤ (l.flatMap f).length := by
  induction l with
  | nil => exact Nat.le_refl _
  | cons x l ih =>
    obtain ⟨hx, hl⟩ := List.forall_mem_cons.1 hle
    rw [List.flatMap_cons, List.flatMap_cons, List.length_append, List.length_append]
    exact Nat.add_le_add hx (ih hl)

theorem flatMap_eq_iff {f g : β → List α} {l : List β}
    (hle : ∀ x ∈ l, (g x).length ≤ (f x).length) :
    l.flatMap f = l.flatMap g ↔ ∀ x ∈ l, f x = g x := by
  constructor
  · intro heq
    induction l with
    | nil => simp
    | cons x l ih =>
      obtain ⟨hx, hl⟩ := List.forall_mem_cons.1 hle
      rw [List.flatMap_cons, List.flatMap_cons] at heq
      have hlen := congrArg List.length heq
      rw [List.length_append, List.length_append] at hlen
      have hrest := length_flatMap_le hl
      obtain ⟨hhead, htail⟩ := List.append_inj heq (by omega)
      exact List.forall_mem_cons.2 ⟨hhead, ih hl htail⟩
  · intro hsame
    induction l with
    | nil => rfl
    | cons x l ih =>
      obtain ⟨hx, hl⟩ := List.forall_mem_cons.1 hsame
      rw [List.flatMap_cons, List.flatMap_cons, hx, ih (List.forall_mem_cons.1 hle).2 hl]

end Joins
