import Mathlib.Data.List.Basic

/-!
# Lines

A text is read as the stretches between its separators. `Lines.written` is the text of lines that
each end with one.

1. `Lines.read_written`: lines without a separator are read as they were written.
2. `Lines.written_split`: a text and a separator are the lines that the text is split into.
-/

namespace Seahaven.Lines

variable {α : Type} {sep : α}

def written (sep : α) (lines : List (List α)) : List α := lines.flatMap fun line => line ++ [sep]

theorem written_append (lines lines' : List (List α)) :
    written sep (lines ++ lines') = written sep lines ++ written sep lines' :=
  List.flatMap_append

theorem written_eq_intercalate {lines : List (List α)} (h : lines ≠ []) :
    written sep lines = [sep].intercalate lines ++ [sep] := by
  induction lines with
  | nil => exact absurd rfl h
  | cons line lines ih =>
    cases lines with
    | nil => simp [written]
    | cons next lines =>
      have hcons : written sep (line :: next :: lines) =
          line ++ [sep] ++ written sep (next :: lines) := rfl
      rw [hcons, ih (List.cons_ne_nil _ _), List.intercalate_cons_cons]
      simp

variable [DecidableEq α]

/-- The lines that are read after the start of one, and whether a separator ended them. -/
def readFrom (sep : α) (line : List α) : List α → List (List α × Bool)
  | [] => if line = [] then [] else [(line, false)]
  | a :: s => if a = sep then (line, true) :: readFrom sep [] s else readFrom sep (line ++ [a]) s

def read (sep : α) (s : List α) : List (List α × Bool) := readFrom sep [] s

theorem readFrom_line {start line : List α} (h : sep ∉ line) (s : List α) :
    readFrom sep start (line ++ sep :: s) = (start ++ line, true) :: read sep s := by
  induction line generalizing start with
  | nil =>
    rw [List.append_nil]
    exact if_pos rfl
  | cons a line ih =>
    have ha : a ≠ sep := fun heq => h (heq ▸ List.mem_cons_self)
    have hline : sep ∉ line := fun hmem => h (List.mem_cons_of_mem _ hmem)
    calc readFrom sep start (a :: line ++ sep :: s)
        = readFrom sep (start ++ [a]) (line ++ sep :: s) := if_neg ha
      _ = (start ++ [a] ++ line, true) :: read sep s := ih hline
      _ = (start ++ a :: line, true) :: read sep s := by
          rw [List.append_assoc, List.singleton_append]

/-- **Round trip.** Lines without a separator are read as they were written. -/
theorem read_written {lines : List (List α)} (h : ∀ line ∈ lines, sep ∉ line) :
    read sep (written sep lines) = lines.map fun line => (line, true) := by
  induction lines with
  | nil => rfl
  | cons line lines ih =>
    obtain ⟨hline, hlines⟩ := List.forall_mem_cons.1 h
    have hwritten : written sep (line :: lines) = line ++ sep :: written sep lines := by
      simp [written]
    rw [hwritten, List.map_cons, ← ih hlines]
    exact readFrom_line hline _

theorem written_split (s : List α) : written sep (s.splitOn sep) = s ++ [sep] := by
  have hne : s.splitOn sep ≠ [] := List.splitOnP_ne_nil _ _
  rw [written_eq_intercalate hne, List.intercalate_splitOn]

theorem not_mem_split {s line : List α} (h : line ∈ s.splitOn sep) : sep ∉ line := by
  induction s generalizing line with
  | nil =>
    rw [List.splitOn_nil, List.mem_singleton] at h
    rw [h]
    exact List.not_mem_nil
  | cons a s ih =>
    rw [List.splitOn, List.splitOnP_cons_eq_if_modifyHead] at h
    by_cases ha : a = sep
    · rw [if_pos (by simpa using ha)] at h
      rcases List.mem_cons.1 h with rfl | hmem
      · exact List.not_mem_nil
      · exact ih hmem
    · rw [if_neg (by simpa using ha)] at h
      cases hsplit : s.splitOnP (· == sep) with
      | nil => exact absurd hsplit (List.splitOnP_ne_nil _ _)
      | cons first rest =>
        have hrest : ∀ l ∈ first :: rest, sep ∉ l := fun l hl => ih (by
          rw [List.splitOn, hsplit]
          exact hl)
        rw [hsplit, List.modifyHead_cons] at h
        rcases List.mem_cons.1 h with rfl | hmem
        · rw [List.mem_cons, not_or]
          exact ⟨fun heq => ha heq.symm, hrest first List.mem_cons_self⟩
        · exact hrest line (List.mem_cons_of_mem _ hmem)

theorem split_eq_singleton {s : List α} (h : sep ∉ s) : s.splitOn sep = [s] :=
  List.splitOnP_eq_singleton fun a ha => by simpa using ne_of_mem_of_not_mem ha h

end Seahaven.Lines
