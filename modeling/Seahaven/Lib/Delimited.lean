import Mathlib.Data.List.DropRight
import Mathlib.Data.List.Infix
import Mathlib.Data.List.TakeWhile

/-!
# Fields between delimiters

A line is divided by delimiters: runs of blanks with at most one mark among them. A blank on its own
only divides, a mark ends the field before it whether that is empty or not.

1. `afterDelimiter`: what stands behind a delimiter.
2. `fields`: the fields of a line, the last of which may be bound to hold the rest of it.
-/

namespace Delimited

variable {α : Type*}

/-- What divides a line: blanks and marks, which are no blanks. -/
structure Delimiters (α : Type*) where
  blank : α → Bool
  mark : α → Bool
  apart : ∀ c, blank c = true → mark c = false

namespace Delimiters

variable (D : Delimiters α)

def divides (c : α) : Bool := D.blank c || D.mark c

def skip (s : List α) : List α := s.dropWhile D.blank

def first (s : List α) : List α := s.takeWhile fun c => !D.divides c

def behind (s : List α) : List α := s.dropWhile fun c => !D.divides c

/-- What stands behind the delimiter that starts with `d`. -/
def afterDelimiter (d : α) (s : List α) : List α :=
  if D.blank d then
    match D.skip s with
    | [] => []
    | c :: rest => if D.mark c then D.skip rest else c :: rest
  else D.skip s

def Terminated (s : List α) : Prop :=
  match D.behind s with
  | [] => False
  | d :: rest => D.afterDelimiter d rest = []

instance (s : List α) : Decidable (D.Terminated s) := by
  unfold Terminated
  cases D.behind s with
  | nil => exact inferInstanceAs (Decidable False)
  | cons d rest =>
    exact match h : D.afterDelimiter d rest with
      | [] => isTrue h
      | a :: l => isFalse (by simp [h])

def lastField (s : List α) : List α := if D.Terminated s then D.first s else s

theorem skip_le (s : List α) : (D.skip s).length ≤ s.length :=
  (List.dropWhile_suffix _).length_le

theorem behind_le (s : List α) : (D.behind s).length ≤ s.length :=
  (List.dropWhile_suffix _).length_le

theorem afterDelimiter_le (d : α) (s : List α) :
    (D.afterDelimiter d s).length ≤ s.length := by
  have hskip := D.skip_le s
  unfold afterDelimiter
  split_ifs
  · cases h : D.skip s with
    | nil => exact Nat.zero_le _
    | cons c rest =>
      rw [h, List.length_cons] at hskip
      dsimp only
      split_ifs
      · have := D.skip_le rest
        omega
      · rwa [List.length_cons]
  · exact hskip

/-- The fields of a line that starts with a field, of which at most `left` are divided off before
the last. -/
def fields (left : Option ℕ) (s : List α) : List (List α) :=
  if s = [] then []
  else if left = some 0 then [D.lastField s]
  else
    match h : D.behind s with
    | [] => [D.first s]
    | d :: rest => D.first s :: fields (left.map (· - 1)) (D.afterDelimiter d rest)
  termination_by s.length
  decreasing_by
    have h₁ := D.behind_le s
    have h₂ := D.afterDelimiter_le d rest
    rw [h, List.length_cons] at h₁
    omega

def trim (s : List α) : List α := (D.skip s).rdropWhile D.blank

variable {D} {s : List α}

theorem divides_iff {c : α} : D.divides c = true ↔ D.blank c = true ∨ D.mark c = true :=
  Bool.or_eq_true_iff

theorem first_append_behind (s : List α) : D.first s ++ D.behind s = s :=
  List.takeWhile_append_dropWhile

theorem divides_of_behind {d : α} {rest : List α} (h : D.behind s = d :: rest) :
    D.divides d = true := by
  have hhead := List.head?_dropWhile_not (fun c => !D.divides c) s
  rw [show s.dropWhile (fun c => !D.divides c) = d :: rest from h] at hhead
  simpa using hhead

theorem skip_eq_self (h : ∀ c ∈ s.head?, D.blank c = false) : D.skip s = s := by
  cases s with
  | nil => rfl
  | cons c s => exact List.dropWhile_cons_of_neg (by simpa using h c rfl)

theorem head_skip (s : List α) : ∀ c ∈ (D.skip s).head?, D.blank c = false := by
  intro c hc
  have hhead := List.head?_dropWhile_not D.blank s
  rw [show (s.dropWhile D.blank).head? = some c from hc] at hhead
  simpa using hhead

theorem skip_skip (s : List α) : D.skip (D.skip s) = D.skip s := skip_eq_self (head_skip s)

theorem exists_blanks (s : List α) : ∃ blanks, s = blanks ++ D.skip s ∧
    ∀ c ∈ blanks, D.blank c = true :=
  ⟨s.takeWhile D.blank, List.takeWhile_append_dropWhile.symm, fun _ h => List.mem_takeWhile_imp h⟩

theorem fields_nil (left : Option ℕ) : D.fields left [] = [] := by
  rw [fields, if_pos rfl]

theorem fields_zero (h : s ≠ []) : D.fields (some 0) s = [D.lastField s] := by
  rw [fields, if_neg h, if_pos rfl]

theorem fields_only {left : Option ℕ} (hleft : left ≠ some 0) (hs : s ≠ [])
    (h : D.behind s = []) : D.fields left s = [s] := by
  rw [fields, if_neg hs, if_neg hleft]
  split
  · have := first_append_behind (D := D) s
    rw [h, List.append_nil] at this
    rw [this]
  · rename_i d rest hd
    rw [h] at hd
    cases hd

theorem fields_cons {left : Option ℕ} (hleft : left ≠ some 0) {d : α} {rest : List α}
    (h : D.behind s = d :: rest) : D.fields left s =
      D.first s :: D.fields (left.map (· - 1)) (D.afterDelimiter d rest) := by
  have hs : s ≠ [] := by
    rintro rfl
    cases h
  rw [fields, if_neg hs, if_neg hleft]
  split
  · rename_i hnil
    rw [h] at hnil
    cases hnil
  · rename_i d' rest' hd
    rw [h] at hd
    obtain ⟨rfl, rfl⟩ := List.cons.inj hd
    rfl

theorem lastField_le (s : List α) : (D.lastField s).length ≤ s.length := by
  unfold lastField
  split_ifs
  · exact (List.takeWhile_prefix _).length_le
  · exact Nat.le_refl _

end Delimiters

end Delimited
