import Mathlib.Data.List.Basic

/-!
# Host strings

A Rust `OsStr` on Unix is a string of bytes, some of which may belong to no character. It is
modelled by its units: the characters it decodes to, and the bytes that belong to none. A Rust
`str` is such a string all of whose units are characters (`isUtf8`).
-/

namespace Seahaven

/-- A unit of a host string: a character, or a byte that is part of no character. -/
inductive OsChar
  | chr (c : Char)
  | raw (b : UInt8)
  deriving DecidableEq

/-- `std::ffi::OsStr`, and `str` where every unit is a character. -/
abbrev OsStr := List OsChar

def os (s : String) : OsStr := s.toList.map OsChar.chr

namespace OsStr

/-- `OsStr::to_str().is_some()`. -/
def isUtf8 (s : OsStr) : Bool :=
  s.all fun
    | .chr _ => true
    | .raw _ => false

def bytes (s : OsStr) : List UInt8 :=
  s.flatMap fun
    | .chr c => String.utf8EncodeChar c
    | .raw b => [b]

abbrev slash : OsChar := .chr '/'

/-- `.`, the current directory. -/
abbrev dot : OsStr := [.chr '.']

/-- `..`, the parent directory. -/
abbrev dotdot : OsStr := [.chr '.', .chr '.']

/-- `s.split('/')`. -/
def split (s : OsStr) : List OsStr := s.splitOn slash

/-- `s.starts_with('/')`. -/
def isAbsolute (s : OsStr) : Bool := s.head? = some slash

/-- `parts.join("/")`. -/
def join : List OsStr → OsStr := List.intercalate [slash]

/-- The components a walk queues for a link target:
`target.split('/').filter(|c| !c.is_empty())`. -/
def components (s : OsStr) : List OsStr := s.split.filter (· ≠ [])

/-! ## Splitting -/

theorem split_nil : split [] = [[]] := by simp [split]

theorem split_cons (a : OsChar) (s : OsStr) :
    split (a :: s) = if a = slash then [] :: split s else (split s).modifyHead (a :: ·) := by
  simp only [split, List.splitOn, List.splitOnP_cons_eq_if_modifyHead, beq_iff_eq]

theorem split_ne_nil (s : OsStr) : split s ≠ [] := List.splitOnP_ne_nil _ _

variable {s c : OsStr}

theorem slash_not_mem_of_mem_split (h : c ∈ split s) : slash ∉ c := by
  induction s generalizing c with
  | nil =>
    rw [split_nil, List.mem_singleton] at h
    simp [h]
  | cons a s ih =>
    rw [split_cons] at h
    split at h
    · rcases List.mem_cons.1 h with rfl | h
      · exact List.not_mem_nil
      · exact ih h
    · rename_i ha
      obtain ⟨d, l, hs⟩ := List.exists_cons_of_ne_nil (split_ne_nil s)
      rw [hs, List.modifyHead_cons] at h
      rcases List.mem_cons.1 h with rfl | h
      · rw [List.mem_cons, not_or]
        exact ⟨fun h => ha h.symm, ih (hs ▸ List.mem_cons_self)⟩
      · exact ih (hs ▸ List.mem_cons_of_mem _ h)

theorem mem_of_mem_split (h : c ∈ split s) {x : OsChar} (hx : x ∈ c) : x ∈ s := by
  induction s generalizing c with
  | nil =>
    rw [split_nil, List.mem_singleton] at h
    exact h ▸ hx
  | cons a s ih =>
    rw [split_cons] at h
    split at h
    · rcases List.mem_cons.1 h with rfl | h
      · exact absurd hx List.not_mem_nil
      · exact List.mem_cons_of_mem _ (ih h hx)
    · obtain ⟨d, l, hs⟩ := List.exists_cons_of_ne_nil (split_ne_nil s)
      rw [hs, List.modifyHead_cons] at h
      rcases List.mem_cons.1 h with rfl | h
      · rcases List.mem_cons.1 hx with rfl | hx
        · exact List.mem_cons_self
        · exact List.mem_cons_of_mem _ (ih (hs ▸ List.mem_cons_self) hx)
      · exact List.mem_cons_of_mem _ (ih (hs ▸ List.mem_cons_of_mem _ h) hx)

theorem split_of_slash_not_mem (h : slash ∉ s) : split s = [s] :=
  List.splitOnP_eq_singleton fun x hx => by simpa using ne_of_mem_of_not_mem hx h

theorem isAbsolute_of_slash_not_mem (h : slash ∉ c) : c.isAbsolute = false := by
  cases c with
  | nil => rfl
  | cons a c =>
    rw [List.mem_cons, not_or] at h
    simpa [isAbsolute] using Ne.symm h.1

variable {l : List OsStr}

theorem split_join (hl : l ≠ []) (h : ∀ c ∈ l, slash ∉ c) :
    split (join l) = l := List.splitOn_intercalate slash h hl

theorem join_split (s : OsStr) : join (split s) = s := List.intercalate_splitOn slash

theorem mem_join {x : OsChar} (h : x ∈ join l) : x = slash ∨ ∃ c ∈ l, x ∈ c := by
  induction l with
  | nil => simp [join] at h
  | cons c l ih =>
    cases l with
    | nil => exact Or.inr ⟨c, by simp, by simpa [join] using h⟩
    | cons d l =>
      have hj : join (c :: d :: l) = c ++ slash :: join (d :: l) := by simp [join]
      rw [hj, List.mem_append, List.mem_cons] at h
      rcases h with h | h | h
      · exact Or.inr ⟨c, by simp, h⟩
      · exact Or.inl h
      · exact (ih h).imp_right fun ⟨e, he, hx⟩ => ⟨e, List.mem_cons_of_mem _ he, hx⟩

theorem mem_components : c ∈ components s ↔ c ∈ split s ∧ c ≠ [] := by
  simp [components]

theorem components_ne_nil (h : c ∈ components s) : c ≠ [] := (mem_components.1 h).2

theorem slash_not_mem_of_mem_components (h : c ∈ components s) : slash ∉ c :=
  slash_not_mem_of_mem_split (mem_components.1 h).1

theorem components_join (h : ∀ c ∈ l, c ≠ [] ∧ slash ∉ c) :
    components (join l) = l := by
  by_cases hl : l = []
  · subst hl
    simp [join, components, split_nil]
  · rw [components, split_join hl fun c hc => (h c hc).2, List.filter_eq_self]
    exact fun c hc => by simpa using (h c hc).1

theorem isUtf8_iff : isUtf8 s = true ↔ ∀ x ∈ s, ∃ c, x = .chr c := by
  simp only [isUtf8, List.all_eq_true]
  refine forall₂_congr fun x _ => ?_
  cases x <;> simp

theorem isUtf8_os (s : String) : isUtf8 (os s) = true := by
  simp [isUtf8_iff, os]

end OsStr

/-- A host path as written, by its components, the root being the component `/`. They are what
`Path` is compared by. -/
abbrev PathBuf := List OsStr

/-- An absolute host path without `.` and `..`, by its components below the root. -/
abbrev HostPath := List OsStr

end Seahaven
