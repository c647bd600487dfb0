import Seahaven.Text

/-!
# Decoding text

`String::from_utf8_lossy` answers the characters of an input, and a replacement character for each
stretch that belongs to none; `String::from_utf8` answers nothing when there is such a stretch.
-/

namespace Seahaven

def isContinuation (b : UInt8) : Bool := b &&& 0xC0 == 0x80

/-- The second bytes that may follow the first byte of a character of three or four bytes. -/
def maySecond (first second : UInt8) : Bool :=
  if first == 0xE0 then 0xA0 ≤ second && second ≤ 0xBF
  else if 0xE1 ≤ first && first ≤ 0xEC then isContinuation second
  else if first == 0xED then 0x80 ≤ second && second ≤ 0x9F
  else if 0xEE ≤ first && first ≤ 0xEF then isContinuation second
  else if first == 0xF0 then 0x90 ≤ second && second ≤ 0xBF
  else if 0xF1 ≤ first && first ≤ 0xF3 then isContinuation second
  else if first == 0xF4 then 0x80 ≤ second && second ≤ 0x8F
  else false

/-- How many bytes of an input that starts with no character one replacement character stands for:
the longest beginning of a character there is, and one byte at least. -/
def invalidLength : List UInt8 → Nat
  | first :: second :: rest =>
    if maySecond first second then
      match rest with
      | third :: _ => if 0xF0 ≤ first && isContinuation third then 3 else 2
      | [] => 2
    else 1
  | _ => 1

def decodeChar (b : List UInt8) : Option Char := b.toByteArray.utf8DecodeChar? 0

/-- The loop of `String::from_utf8_lossy`. Each round takes one byte at least. -/
def lossyLoop : Nat → List UInt8 → OsStr
  | 0, _ => []
  | _, [] => []
  | fuel + 1, b =>
    match decodeChar b with
    | some c => .chr c :: lossyLoop fuel (b.drop c.utf8Size)
    | none => .chr '\uFFFD' :: lossyLoop fuel (b.drop (invalidLength b))

/-- `String::from_utf8_lossy`. -/
def fromUtf8Lossy (b : List UInt8) : OsStr := lossyLoop b.length b

/-- The loop of `String::from_utf8`. -/
def strictLoop : Nat → List UInt8 → Option OsStr
  | _, [] => some []
  | 0, _ => none
  | fuel + 1, b =>
    match decodeChar b with
    | some c => (strictLoop fuel (b.drop c.utf8Size)).map (.chr c :: ·)
    | none => none

/-- `String::from_utf8`. -/
def fromUtf8 (b : List UInt8) : Option OsStr := strictLoop b.length b

theorem decodeChar_encode (c : Char) (b : List UInt8) :
    decodeChar (String.utf8EncodeChar c ++ b) = some c := by
  rw [decodeChar, List.toByteArray_append]
  exact ByteArray.utf8DecodeChar?_utf8EncodeChar_append

theorem decode_cons (c : Char) (s : OsStr) : decodeChar (OsStr.bytes (.chr c :: s)) = some c ∧
    (OsStr.bytes (.chr c :: s)).drop c.utf8Size = s.bytes ∧
      (OsStr.bytes (.chr c :: s)).length = s.bytes.length + c.utf8Size := by
  have hb : OsStr.bytes (.chr c :: s) = String.utf8EncodeChar c ++ s.bytes := rfl
  have hc : (String.utf8EncodeChar c).length = c.utf8Size := String.length_utf8EncodeChar c
  refine ⟨hb ▸ decodeChar_encode c _, ?_, ?_⟩
  · rw [hb, ← hc, List.drop_left]
  · rw [hb, List.length_append, hc, Nat.add_comm]

theorem bytes_chr_ne_nil (c : Char) (s : OsStr) : OsStr.bytes (.chr c :: s) ≠ [] := by
  have h := (decode_cons c s).2.2
  have hpos := c.utf8Size_pos
  intro hnil
  rw [hnil, List.length_nil] at h
  omega

variable {s : OsStr}

theorem lossyLoop_bytes (hs : s.isUtf8 = true) :
    ∀ fuel, s.bytes.length ≤ fuel → lossyLoop fuel s.bytes = s := by
  induction s with
  | nil =>
    intro fuel _
    cases fuel <;> rfl
  | cons x s ih =>
    intro fuel hf
    obtain ⟨⟨c, rfl⟩, htail⟩ := List.forall_mem_cons.1 (OsStr.isUtf8_iff.1 hs)
    obtain ⟨hchar, hdrop, hlen⟩ := decode_cons c s
    have hpos := c.utf8Size_pos
    obtain ⟨fuel, rfl⟩ : ∃ n, fuel = n + 1 := ⟨fuel - 1, by omega⟩
    rw [lossyLoop, hchar]
    · dsimp only
      rw [hdrop, ih (OsStr.isUtf8_iff.2 htail) fuel (by omega)]
    · exact bytes_chr_ne_nil c s

theorem strictLoop_bytes (hs : s.isUtf8 = true) :
    ∀ fuel, s.bytes.length ≤ fuel → strictLoop fuel s.bytes = some s := by
  induction s with
  | nil =>
    intro fuel _
    cases fuel <;> rfl
  | cons x s ih =>
    intro fuel hf
    obtain ⟨⟨c, rfl⟩, htail⟩ := List.forall_mem_cons.1 (OsStr.isUtf8_iff.1 hs)
    obtain ⟨hchar, hdrop, hlen⟩ := decode_cons c s
    have hpos := c.utf8Size_pos
    obtain ⟨fuel, rfl⟩ : ∃ n, fuel = n + 1 := ⟨fuel - 1, by omega⟩
    rw [strictLoop, hchar]
    · dsimp only
      rw [hdrop, ih (OsStr.isUtf8_iff.2 htail) fuel (by omega)]
      rfl
    · exact bytes_chr_ne_nil c s

theorem fromUtf8_bytes (hs : s.isUtf8 = true) : fromUtf8 s.bytes = some s :=
  strictLoop_bytes hs _ (Nat.le_refl _)

variable {b : List UInt8}

theorem eq_append_of_decodeChar {c : Char} (h : decodeChar b = some c) :
    b = String.utf8EncodeChar c ++ b.drop c.utf8Size := by
  obtain ⟨l, hl⟩ := ByteArray.exists_of_utf8DecodeChar?_eq_some h
  have hlist : b = String.utf8EncodeChar c ++ l.data.toList := by
    have := congrArg (fun a : ByteArray => a.data.toList) hl
    simpa using this
  have hc : (String.utf8EncodeChar c).length = c.utf8Size := String.length_utf8EncodeChar c
  conv_rhs => rw [hlist, ← hc, List.drop_left]
  exact hlist

theorem bytes_of_strictLoop {fuel : Nat}
    (h : strictLoop fuel b = some s) : s.bytes = b ∧ s.isUtf8 = true := by
  induction fuel generalizing b s with
  | zero =>
    cases b with
    | nil => exact Option.some.inj h ▸ ⟨rfl, rfl⟩
    | cons x b => cases h
  | succ fuel ih =>
    cases b with
    | nil => exact Option.some.inj h ▸ ⟨rfl, rfl⟩
    | cons x b =>
      unfold strictLoop at h
      cases hc : decodeChar (x :: b) with
      | none =>
        rw [hc] at h
        cases h
      | some c =>
        rw [hc] at h
        obtain ⟨s', hs', rfl⟩ := Option.map_eq_some_iff.1 h
        obtain ⟨hbytes, hutf8⟩ := ih hs'
        refine ⟨?_, OsStr.isUtf8_iff.2 (List.forall_mem_cons.2 ⟨⟨c, rfl⟩, OsStr.isUtf8_iff.1 hutf8⟩)⟩
        rw [eq_append_of_decodeChar hc, ← hbytes]
        rfl

theorem fromUtf8_eq_some : fromUtf8 b = some s ↔ s.bytes = b ∧ s.isUtf8 = true := by
  refine ⟨bytes_of_strictLoop, ?_⟩
  rintro ⟨rfl, hs⟩
  exact fromUtf8_bytes hs

/-- **Text decodes to itself.** -/
theorem fromUtf8Lossy_bytes (hs : s.isUtf8 = true) : fromUtf8Lossy s.bytes = s :=
  lossyLoop_bytes hs _ (Nat.le_refl _)

theorem invalidLength_pos (b : List UInt8) : 0 < invalidLength b := by
  unfold invalidLength
  split
  · split
    · split
      · split <;> decide
      · decide
    · decide
  · decide

theorem lossyLoop_fuel (b : List UInt8) (fuel : Nat) (hf : b.length ≤ fuel) :
    lossyLoop fuel b = fromUtf8Lossy b := by
  unfold fromUtf8Lossy
  induction hn : b.length using Nat.strongRecOn generalizing b fuel with
  | ind n ih =>
    subst hn
    cases b with
    | nil => cases fuel <;> rfl
    | cons x b =>
      obtain ⟨fuel, rfl⟩ : ∃ m, fuel = m + 1 := ⟨fuel - 1, by rw [List.length_cons] at hf; omega⟩
      rw [List.length_cons] at hf ⊢
      have hdrop : ∀ k, 0 < k → lossyLoop fuel ((x :: b).drop k) =
          lossyLoop b.length ((x :: b).drop k) := fun k hk => by
        have hlen : ((x :: b).drop k).length < (x :: b).length := by
          rw [List.length_drop, List.length_cons]
          omega
        have hle : ((x :: b).drop k).length ≤ b.length := Nat.le_of_lt_succ hlen
        rw [ih _ hlen _ fuel (by omega) rfl, ih _ hlen _ b.length hle rfl]
      rw [lossyLoop, lossyLoop]
      · cases decodeChar (x :: b) with
        | some c =>
          dsimp only
          rw [hdrop _ c.utf8Size_pos]
        | none =>
          dsimp only
          rw [hdrop _ (invalidLength_pos _)]
      · nofun
      · nofun

/-- **A character in front** decodes to itself. -/
theorem fromUtf8Lossy_encode (c : Char) (b : List UInt8) :
    fromUtf8Lossy (String.utf8EncodeChar c ++ b) = .chr c :: fromUtf8Lossy b := by
  have hlen := String.length_utf8EncodeChar c
  have hpos := c.utf8Size_pos
  obtain ⟨n, hn⟩ : ∃ n, (String.utf8EncodeChar c ++ b).length = n + 1 :=
    ⟨(String.utf8EncodeChar c ++ b).length - 1, by rw [List.length_append]; omega⟩
  have hne : String.utf8EncodeChar c ++ b ≠ [] := by
    intro hnil
    rw [hnil] at hn
    cases hn
  have hb : b.length ≤ n := by
    rw [List.length_append] at hn
    omega
  rw [fromUtf8Lossy, hn, lossyLoop, decodeChar_encode]
  · dsimp only
    rw [← hlen, List.drop_left, lossyLoop_fuel b n hb]
  · exact hne

theorem fromUtf8Lossy_head {x : OsChar}
    (h : fromUtf8Lossy b = x :: s) :
    x = .chr '\uFFFD' ∨ ∃ c rest, x = .chr c ∧ b = String.utf8EncodeChar c ++ rest := by
  unfold fromUtf8Lossy at h
  cases b with
  | nil => cases h
  | cons y b =>
    rw [List.length_cons, lossyLoop] at h
    · cases hc : decodeChar (y :: b) with
      | none =>
        rw [hc] at h
        exact .inl (List.cons.inj h).1.symm
      | some c =>
        rw [hc] at h
        refine .inr ⟨c, ?_⟩
        obtain ⟨l, hl⟩ := ByteArray.exists_of_utf8DecodeChar?_eq_some hc
        refine ⟨l.data.toList, (List.cons.inj h).1.symm, ?_⟩
        have hdata := congrArg (fun a : ByteArray => a.data.toList) hl
        simpa using hdata
    · nofun

/-- `OsStr::to_string_lossy`. -/
def OsStr.toStringLossy (s : OsStr) : OsStr := fromUtf8Lossy s.bytes

end Seahaven
