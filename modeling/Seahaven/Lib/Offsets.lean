import Mathlib.Data.List.Basic

/-!
# Byte offsets into text

A Rust `str` is indexed by bytes: an offset is where a character starts if and only if it is the
size of a beginning of the text. Cutting anywhere else panics.
-/

namespace Offsets

/-- `s.len()`. -/
def byteLen : List Char → Nat
  | [] => 0
  | c :: s => c.utf8Size + byteLen s

def cut : List Char → Nat → Option (List Char × List Char)
  | s, 0 => some ([], s)
  | [], _ + 1 => none
  | c :: s, n + 1 =>
    if c.utf8Size ≤ n + 1 then (cut s (n + 1 - c.utf8Size)).map fun x => (c :: x.1, x.2) else none

/-- The offsets that `s.char_indices()` yields, with `start` before the first. -/
def charIndices (start : Nat) : List Char → List Nat
  | [] => []
  | c :: s => start :: charIndices (start + c.utf8Size) s

@[simp] theorem byteLen_append (p r : List Char) : byteLen (p ++ r) = byteLen p + byteLen r := by
  induction p with
  | nil => simp [byteLen]
  | cons c p ih =>
    rw [List.cons_append, byteLen, byteLen, ih, Nat.add_assoc]

theorem cut_append (p r : List Char) : cut (p ++ r) (byteLen p) = some (p, r) := by
  induction p with
  | nil =>
    cases r <;> rfl
  | cons c p ih =>
    have hpos := c.utf8Size_pos
    obtain ⟨n, hn⟩ : ∃ n, byteLen (c :: p) = n + 1 := ⟨byteLen (c :: p) - 1, by rw [byteLen]; omega⟩
    have hrest : n + 1 - c.utf8Size = byteLen p := by
      rw [← hn, byteLen]
      omega
    rw [List.cons_append, hn, cut, if_pos (by rw [← hn, byteLen]; omega), hrest, ih]
    rfl

theorem charIndices_append (start : Nat) (p r : List Char) :
    charIndices start (p ++ r) = charIndices start p ++ charIndices (start + byteLen p) r := by
  induction p generalizing start with
  | nil => rfl
  | cons c p ih =>
    rw [List.cons_append, charIndices, charIndices, ih, byteLen, List.cons_append, Nat.add_assoc]

end Offsets
