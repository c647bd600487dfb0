import Mathlib.Data.List.TakeWhile
import Seahaven.Shell.Fields

/-!
# Reading ANSI-C quotes back

A control character is written by its octal digits. `\0` reads up to three more digits, so that a
digit that follows such a character is read with it.

1. `readBack`: the bytes that are read. `expandLoop_body`: they are what is expanded.
2. `Apart`: no digit follows such a character. `decoded_readBack_iff`: when the text comes back.
-/

namespace Seahaven.Shell

def writtenFromZero (c : Char) : Bool :=
  c.toNat < 0x20 && !(['\x07', '\x08', '\x1b', '\x0c', '\n', '\r', '\t', '\x0b'].contains c)

/-- The bytes that are read between ANSI-C quotes. -/
def readBack : List Char → List UInt8
  | [] => []
  | [c] => String.utf8EncodeChar c
  | c :: d :: s =>
    if writtenFromZero c && isOctalDigit d then
      UInt8.ofNat (c.toNat * 8 + digitValue d) :: readBack s
    else String.utf8EncodeChar c ++ readBack (d :: s)

/-! ## Digits -/

theorem octalDigit_spec (n : Nat) :
    isOctalDigit (octalDigit n) = true ∧ digitValue (octalDigit n) = n % 8 := by
  have h : ∀ k < 8, isOctalDigit (Char.ofNat ('0'.toNat + k)) = true ∧
      digitValue (Char.ofNat ('0'.toNat + k)) = k := by decide
  exact h (n % 8) (Nat.mod_lt _ (by decide))

variable {n : Nat} {c : Char} {s : List Char}

theorem takeDigits_cons {p : Char → Bool} (h : p c = true) :
    takeDigits p (n + 1) (c :: s) = (c :: (takeDigits p n s).1, (takeDigits p n s).2) := by
  rw [takeDigits, if_pos h]

theorem takeDigits_none {p : Char → Bool}
    (h : ∀ c ∈ s.head?, p c = false) : takeDigits p n s = ([], s) := by
  cases n with
  | zero => rfl
  | succ n =>
    cases s with
    | nil => rfl
    | cons c s =>
      have hc : p c = false := h c rfl
      rw [takeDigits, hc, if_neg Bool.false_ne_true]

theorem digitValue_lt (h : isOctalDigit c = true) : digitValue c < 8 := by
  unfold isOctalDigit at h
  rw [Bool.and_eq_true, decide_eq_true_eq, decide_eq_true_eq] at h
  have h0 : '0'.toNat ≤ c.toNat := h.1
  have h7 : c.toNat ≤ '7'.toNat := h.2
  have hd : c.isDigit = true := by
    unfold Char.isDigit
    rw [Bool.and_eq_true, decide_eq_true_eq, decide_eq_true_eq]
    exact ⟨h.1, Char.le_trans h.2 (by decide)⟩
  unfold digitValue
  rw [if_pos hd]
  have : '7'.toNat = '0'.toNat + 7 := rfl
  omega

/-! ## Characters -/

theorem ansiCChar_cases (c : Char) :
    (∃ x, ansiCChar c = ['\\', x] ∧ ∀ s, escape .ansiCQuotes x s =
      .ok (.bytes (String.utf8EncodeChar c) s)) ∧ writtenFromZero c = false ∨
    (writtenFromZero c = true ∧ ansiCChar c = ['\\', '0', octalDigit (c.toNat / 8),
      octalDigit c.toNat] ∧ c.toNat < 0x20) ∨
    (c = '\x7f' ∧ ansiCChar c = ['\\', '1', '7', '7']) ∨
    (ansiCChar c = [c] ∧ c ≠ '\\' ∧ c ≠ '\'' ∧ writtenFromZero c = false) := by
  by_cases hnamed : c ∈ ['\x07', '\x08', '\x1b', '\x0c', '\n', '\r', '\t', '\x0b', '\\', '\'']
  · left
    simp only [List.mem_cons, List.not_mem_nil, or_false] at hnamed
    rcases hnamed with rfl | rfl | rfl | rfl | rfl | rfl | rfl | rfl | rfl | rfl <;>
      exact ⟨⟨_, rfl, fun s => rfl⟩, rfl⟩
  · right
    simp only [List.mem_cons, List.not_mem_nil, or_false, not_or] at hnamed
    obtain ⟨h₁, h₂, h₃, h₄, h₅, h₆, h₇, h₈, h₉, h₁₀⟩ := hnamed
    unfold ansiCChar
    rw [if_neg h₁, if_neg h₂, if_neg h₃, if_neg h₄, if_neg h₅, if_neg h₆, if_neg h₇, if_neg h₈,
      if_neg h₉, if_neg h₁₀]
    have hzero : writtenFromZero c = decide (c.toNat < 0x20) := by
      unfold writtenFromZero
      simp [h₁, h₂, h₃, h₄, h₅, h₆, h₇, h₈]
    by_cases hlow : c.toNat < 0x20
    · left
      have hctl : needsAnsiCQuoting c = true := by
        unfold needsAnsiCQuoting
        simp [hlow]
      rw [hctl, if_pos rfl]
      refine ⟨by simp [hzero, hlow], ?_, hlow⟩
      unfold threeOctalDigits octalDigit
      have hdiv : c.toNat / 64 = 0 := by omega
      rw [hdiv]
      rfl
    · right
      by_cases hdel : c = '\x7f'
      · left
        subst hdel
        exact ⟨rfl, rfl⟩
      · right
        have hctl : needsAnsiCQuoting c = false := by
          have hne : c.toNat ≠ 0x7F := fun he => hdel (Char.toNat_inj.1 he)
          unfold needsAnsiCQuoting
          simp [hlow, hne]
        rw [hctl, if_neg Bool.false_ne_true]
        exact ⟨rfl, h₉, h₁₀, by simp [hzero, hlow]⟩

variable {d : Char}

theorem ansiCChar_octal (h : isOctalDigit d = true) : ansiCChar d = [d] := by
  have hall : ∀ d ∈ ['0', '1', '2', '3', '4', '5', '6', '7'], ansiCChar d = [d] := by
    intro d hd
    simp only [List.mem_cons, List.not_mem_nil, or_false] at hd
    rcases hd with rfl | rfl | rfl | rfl | rfl | rfl | rfl | rfl <;> rfl
  refine hall d ?_
  unfold isOctalDigit at h
  rw [Bool.and_eq_true, decide_eq_true_eq, decide_eq_true_eq] at h
  have h0 : '0'.toNat ≤ d.toNat := h.1
  have h7 : d.toNat ≤ '7'.toNat := h.2
  have hlt : d.toNat - 48 < 8 := by
    have : '7'.toNat = 55 := rfl
    omega
  have hd : d = Char.ofNat (48 + (d.toNat - 48)) := by
    have : '0'.toNat = 48 := rfl
    rw [show 48 + (d.toNat - 48) = d.toNat by omega, Char.ofNat_toNat]
  have hmem : ∀ k < 8, Char.ofNat (48 + k) ∈ ['0', '1', '2', '3', '4', '5', '6', '7'] := by decide
  rw [hd]
  exact hmem _ hlt

theorem head_body (s : List Char) :
    (s.flatMap ansiCChar).head?.any isOctalDigit = s.head?.any isOctalDigit := by
  cases s with
  | nil => rfl
  | cons d s =>
    rw [List.flatMap_cons]
    rcases ansiCChar_cases d with ⟨⟨x, hx, -⟩, -⟩ | ⟨hz, hx, hlow⟩ | ⟨rfl, hx⟩ | ⟨hx, -⟩
    · cases hd : isOctalDigit d with
      | true =>
        rw [ansiCChar_octal hd] at hx
        simp at hx
      | false =>
        rw [hx]
        simp [hd]
        decide
    · cases hd : isOctalDigit d with
      | true =>
        rw [ansiCChar_octal hd] at hx
        simp at hx
      | false =>
        rw [hx]
        simp [hd]
        decide
    · rw [hx]
      rfl
    · rw [hx]
      rfl

/-! ## The text between the quotes -/

theorem numberOf_two (a b : Nat) :
    numberOf 8 [octalDigit a, octalDigit b] = a % 8 * 8 + b % 8 := by
  unfold numberOf
  rw [List.foldl_cons, List.foldl_cons, List.foldl_nil, (octalDigit_spec a).2, (octalDigit_spec b).2]
  omega

theorem escape_zero (hn : n < 0x20) (s : List Char) :
    escape .ansiCQuotes '0' (octalDigit (n / 8) :: octalDigit n :: s) =
      .ok (match s with
        | d :: s' => if isOctalDigit d then .bytes [UInt8.ofNat (n * 8 + digitValue d)] s'
          else .bytes [UInt8.ofNat n] s
        | [] => .bytes [UInt8.ofNat n] []) := by
  have hvalue : n / 8 % 8 * 8 + n % 8 = n := by omega
  have hunfold : ∀ s', escape .ansiCQuotes '0' s' =
      (parseUnsigned 8 8 (takeDigits isOctalDigit 3 s').1).map fun n =>
        .bytes [UInt8.ofNat n] (takeDigits isOctalDigit 3 s').2 := fun _ => rfl
  rw [hunfold, takeDigits_cons (octalDigit_spec _).1, takeDigits_cons (octalDigit_spec _).1]
  have htwo : (parseUnsigned 8 8 [octalDigit (n / 8), octalDigit n]) = .ok n := by
    unfold parseUnsigned
    rw [numberOf_two, hvalue, if_pos (by omega)]
  have hnone : takeDigits isOctalDigit 1 s = ([], s) → (parseUnsigned 8 8
      (octalDigit (n / 8) :: octalDigit n :: (takeDigits isOctalDigit 1 s).1)).map (fun n =>
        Escaped.bytes [UInt8.ofNat n] (takeDigits isOctalDigit 1 s).2) =
      .ok (.bytes [UInt8.ofNat n] s) := fun h => by
    rw [h]
    dsimp only
    rw [htwo]
    rfl
  cases s with
  | nil => exact hnone rfl
  | cons d s =>
    cases hd : isOctalDigit d with
    | false =>
      dsimp only
      rw [hd, if_neg Bool.false_ne_true]
      exact hnone (takeDigits_none fun c hc => by cases hc; exact hd)
    | true =>
      have hlt := digitValue_lt hd
      have hthree : parseUnsigned 8 8 [octalDigit (n / 8), octalDigit n, d] =
          .ok (n * 8 + digitValue d) := by
        have hnum : numberOf 8 [octalDigit (n / 8), octalDigit n, d] = n * 8 + digitValue d := by
          change numberOf 8 [octalDigit (n / 8), octalDigit n] * 8 + digitValue d = _
          rw [numberOf_two, hvalue]
        unfold parseUnsigned
        rw [hnum, if_pos (by omega)]
      rw [takeDigits_cons hd]
      dsimp only [takeDigits]
      rw [hthree, hd, if_pos rfl]
      rfl

theorem escape_delete (s : List Char) : escape .ansiCQuotes '1' ('7' :: '7' :: s) =
    .ok (.bytes [0x7F] s) := rfl

theorem encode_low (h : c.toNat < 0x80) :
    String.utf8EncodeChar c = [UInt8.ofNat c.toNat] := by
  have hall : ∀ n < 0x80, String.utf8EncodeChar (Char.ofNat n) = [UInt8.ofNat n] := by decide
  have := hall c.toNat h
  rwa [Char.ofNat_toNat] at this

theorem loop_escape {fuel : Nat} {x : Char} {rest : List Char} {b r : List UInt8}
    (h : escape .ansiCQuotes x s = .ok (.bytes b rest))
    (hr : expandLoop .ansiCQuotes fuel rest = .ok (r, true)) :
    expandLoop .ansiCQuotes (fuel + 1) ('\\' :: x :: s) = .ok (b ++ r, true) := by
  rw [expandLoop, if_pos rfl]
  dsimp only
  rw [h]
  dsimp only
  rw [hr]
  rfl

theorem loop_plain {fuel : Nat} {r : List UInt8} (hc : c ≠ '\\')
    (hr : expandLoop .ansiCQuotes fuel s = .ok (r, true)) :
    expandLoop .ansiCQuotes (fuel + 1) (c :: s) = .ok (String.utf8EncodeChar c ++ r, true) := by
  unfold expandLoop
  rw [if_neg hc, hr]
  rfl

theorem readBack_cons (h : writtenFromZero c = false) (s : List Char) :
    readBack (c :: s) = String.utf8EncodeChar c ++ readBack s := by
  cases s with
  | nil => exact (List.append_nil _).symm
  | cons d s =>
    rw [readBack, h]
    rfl

/-- **Reading back.** The text between the quotes expands to the bytes that are read back. -/
theorem expandLoop_body (s : List Char) (fuel : Nat) (hf : (s.flatMap ansiCChar).length ≤ fuel) :
    expandLoop .ansiCQuotes fuel (s.flatMap ansiCChar) = .ok (readBack s, true) := by
  induction hn : s.length using Nat.strongRecOn generalizing s fuel with
  | ind n ih =>
    subst hn
    cases s with
    | nil => cases fuel <;> rfl
    | cons c s =>
      have ihs : ∀ s' : List Char, s'.length < (c :: s).length → ∀ fuel,
          (s'.flatMap ansiCChar).length ≤ fuel →
            expandLoop .ansiCQuotes fuel (s'.flatMap ansiCChar) = .ok (readBack s', true) :=
        fun s' hlt fuel hf => ih _ hlt s' fuel hf rfl
      have hs : s.length < (c :: s).length := Nat.lt_succ_self _
      rw [List.flatMap_cons] at hf ⊢
      rw [List.length_append] at hf
      rcases ansiCChar_cases c with ⟨⟨x, hx, hesc⟩, hz⟩ | ⟨hz, hx, hlow⟩ | ⟨rfl, hx⟩ | ⟨hx, hb, -, hz⟩
      · rw [hx, List.length_cons, List.length_singleton] at hf
        obtain ⟨fuel, rfl⟩ : ∃ m, fuel = m + 1 := ⟨fuel - 1, by omega⟩
        rw [hx, readBack_cons hz]
        exact loop_escape (hesc _) (ihs s hs fuel (by omega))
      · rw [hx, List.length_cons, List.length_cons, List.length_cons, List.length_singleton] at hf
        obtain ⟨fuel, rfl⟩ : ∃ m, fuel = m + 1 := ⟨fuel - 1, by omega⟩
        rw [hx]
        have hbyte : String.utf8EncodeChar c = [UInt8.ofNat c.toNat] := encode_low (by omega)
        have hesc := escape_zero hlow (s.flatMap ansiCChar)
        -- whether the next character is a digit that is read with it
        cases s with
        | nil =>
          rw [readBack, hbyte]
          exact loop_escape hesc (ihs [] hs fuel (Nat.zero_le _))
        | cons d s =>
          rw [List.length_cons, List.length_cons] at hs
          cases hd : isOctalDigit d with
          | true =>
            rw [List.flatMap_cons, ansiCChar_octal hd] at hesc hf ⊢
            rw [List.singleton_append] at hesc
            dsimp only at hesc
            rw [hd, if_pos rfl] at hesc
            rw [List.length_append] at hf
            rw [readBack, hz, hd]
            exact loop_escape hesc (ihs s (Nat.lt_of_succ_lt hs) fuel (by omega))
          | false =>
            have hhead := head_body (d :: s)
            rw [List.head?_cons, Option.any_some, hd] at hhead
            have hmatch : escape .ansiCQuotes '0' (octalDigit (c.toNat / 8) ::
                octalDigit c.toNat :: (d :: s).flatMap ansiCChar) =
                .ok (.bytes [UInt8.ofNat c.toNat] ((d :: s).flatMap ansiCChar)) := by
              rw [hesc]
              cases hbody : (d :: s).flatMap ansiCChar with
              | nil => rfl
              | cons d' s' =>
                rw [hbody] at hhead
                have hd' : isOctalDigit d' = false := hhead
                dsimp only
                rw [hd', if_neg Bool.false_ne_true]
            rw [readBack, hd, Bool.and_false, if_neg Bool.false_ne_true, hbyte]
            exact loop_escape hmatch (ihs (d :: s) hs fuel (by omega))
      · rw [hx, List.length_cons, List.length_cons, List.length_cons, List.length_singleton] at hf
        obtain ⟨fuel, rfl⟩ : ∃ m, fuel = m + 1 := ⟨fuel - 1, by omega⟩
        rw [hx, readBack_cons rfl]
        exact loop_escape (escape_delete _) (ihs s hs fuel (by omega))
      · rw [hx, List.length_singleton] at hf
        obtain ⟨fuel, rfl⟩ : ∃ m, fuel = m + 1 := ⟨fuel - 1, by omega⟩
        rw [hx, readBack_cons hz]
        exact loop_plain hb (ihs s hs fuel (by omega))

/-! ## When the text comes back -/

def Apart (s : List Char) : Prop :=
  ∀ l c d r, s = l ++ c :: d :: r → writtenFromZero c = true → isOctalDigit d = false

theorem apart_cons :
    Apart (c :: s) ↔ (writtenFromZero c = true → s.head?.any isOctalDigit = false) ∧ Apart s := by
  constructor
  · intro h
    refine ⟨fun hz => ?_, fun l c' d r hs => h (c :: l) c' d r (by rw [hs]; rfl)⟩
    cases s with
    | nil => rfl
    | cons d s => exact h [] c d s rfl hz
  · rintro ⟨hc, hs⟩ l c' d r h hz
    cases l with
    | nil =>
      obtain ⟨rfl, rfl⟩ := List.cons.inj h
      exact hc hz
    | cons x l => exact hs l c' d r (List.cons.inj h).2 hz

theorem ofNat_ne_zero (h : 0 < n) (hlt : n < 256) : UInt8.ofNat n ≠ 0 := by
  intro he
  have hn := congrArg UInt8.toNat he
  rw [UInt8.toNat_ofNat'] at hn
  change n % 256 = 0 at hn
  omega

theorem encode_ne_zero (hc : c ≠ '\x00') : 0 ∉ String.utf8EncodeChar c := by
  have hpos : 0 < c.val.toNat := by
    refine Nat.pos_of_ne_zero fun h => hc (Char.toNat_inj.1 ?_)
    exact h
  have hne : ∀ {n : Nat}, 0 < n → n < 256 → 0 ≠ UInt8.ofNat n := fun h hlt =>
    (ofNat_ne_zero h hlt).symm
  unfold String.utf8EncodeChar
  dsimp only
  split_ifs
  · rw [List.mem_singleton]
    exact hne hpos (by omega)
  all_goals
    simp only [List.mem_cons, List.not_mem_nil, or_false, not_or]
  · exact ⟨hne (by omega) (by omega), hne (by omega) (by omega)⟩
  · exact ⟨hne (by omega) (by omega), hne (by omega) (by omega), hne (by omega) (by omega)⟩
  · exact ⟨hne (by omega) (by omega), hne (by omega) (by omega), hne (by omega) (by omega),
      hne (by omega) (by omega)⟩

theorem low_of_writtenFromZero (h : writtenFromZero c = true) : c.toNat < 0x20 := by
  unfold writtenFromZero at h
  exact of_decide_eq_true (Bool.and_eq_true _ _ ▸ h).1

theorem readBack_merged (h : (writtenFromZero c && isOctalDigit d) = true) :
    readBack (c :: d :: s) = UInt8.ofNat (c.toNat * 8 + digitValue d) :: readBack s := by
  rw [readBack, if_pos h]

theorem readBack_apart (h : writtenFromZero c = true → s.head?.any isOctalDigit = false) :
    readBack (c :: s) = String.utf8EncodeChar c ++ readBack s := by
  cases s with
  | nil => exact (List.append_nil _).symm
  | cons d s =>
    have hnot : (writtenFromZero c && isOctalDigit d) = false := by
      cases hz : writtenFromZero c with
      | false => rfl
      | true => exact h hz
    rw [readBack, hnot, if_neg Bool.false_ne_true]

theorem merges_or_apart (c : Char) (s : List Char) :
    (∃ d s', s = d :: s' ∧ (writtenFromZero c && isOctalDigit d) = true) ∨
      (writtenFromZero c = true → s.head?.any isOctalDigit = false) := by
  cases s with
  | nil => exact .inr fun _ => rfl
  | cons d s =>
    cases hz : writtenFromZero c with
    | false => exact .inr nofun
    | true =>
      cases hd : isOctalDigit d with
      | false => exact .inr fun _ => hd
      | true => exact .inl ⟨d, s, rfl, by rw [hd]; rfl⟩

theorem readBack_ne_zero (hs : '\x00' ∉ s) : 0 ∉ readBack s := by
  induction hn : s.length using Nat.strongRecOn generalizing s with
  | ind n ih =>
    subst hn
    cases s with
    | nil => exact nofun
    | cons c s =>
      obtain ⟨hc, hs⟩ := not_or.1 fun h => hs (List.mem_cons.2 h)
      rcases merges_or_apart c s with ⟨d, s, rfl, hm⟩ | hap
      · have hlow := low_of_writtenFromZero (Bool.and_eq_true _ _ ▸ hm).1
        have hdig := digitValue_lt (Bool.and_eq_true _ _ ▸ hm).2
        have hpos : 0 < c.toNat := Nat.pos_of_ne_zero fun h => hc (Char.toNat_inj.1 h).symm
        rw [readBack_merged hm, List.mem_cons, not_or]
        refine ⟨(ofNat_ne_zero (by omega) (by omega)).symm, ?_⟩
        exact ih s.length (Nat.lt_add_of_pos_right (n := s.length) (k := 2) (by decide))
          (fun h => hs (List.mem_cons_of_mem _ h)) rfl
      · rw [readBack_apart hap, List.mem_append, not_or]
        exact ⟨encode_ne_zero fun h => hc h.symm, ih s.length (Nat.lt_succ_self _) hs rfl⟩

theorem expand_body (hs : '\x00' ∉ s) :
    expandBackslashEscapes (s.flatMap ansiCChar) .ansiCQuotes = .ok (readBack s, true) := by
  unfold expandBackslashEscapes
  rw [expandLoop_body s _ (Nat.le_refl _)]
  have hall : (readBack s).takeWhile (· ≠ 0) = readBack s := by
    rw [List.takeWhile_eq_self_iff]
    intro b hb
    simpa using fun h : b = 0 => readBack_ne_zero hs (h ▸ hb)
  change Except.ok ((readBack s).takeWhile (· ≠ 0), true) = _
  rw [hall]

theorem decoded_encode (c : Char) (b : List UInt8) :
    decoded (String.utf8EncodeChar c ++ b) = c :: decoded b := by
  unfold decoded
  rw [fromUtf8Lossy_encode]
  rfl

theorem decoded_merged {b : List UInt8} (hc : c ≠ '\x00')
    (h : (writtenFromZero c && isOctalDigit d) = true) :
    decoded (UInt8.ofNat (c.toNat * 8 + digitValue d) :: b) ≠ c :: s := by
  intro heq
  have hlow := low_of_writtenFromZero (Bool.and_eq_true _ _ ▸ h).1
  have hdig := digitValue_lt (Bool.and_eq_true _ _ ▸ h).2
  have hpos : 0 < c.toNat := Nat.pos_of_ne_zero fun h => hc (Char.toNat_inj.1 h)
  unfold decoded at heq
  cases hlossy : fromUtf8Lossy (UInt8.ofNat (c.toNat * 8 + digitValue d) :: b) with
  | nil =>
    rw [hlossy] at heq
    cases heq
  | cons x t =>
    rw [hlossy] at heq
    rcases fromUtf8Lossy_head hlossy with rfl | ⟨c', rest, rfl, hb⟩
    · obtain rfl : '\uFFFD' = c := (List.cons.inj heq).1
      exact absurd hlow (by decide)
    · obtain rfl : c' = c := (List.cons.inj heq).1
      rw [encode_low (by omega)] at hb
      have hbyte := congrArg UInt8.toNat (List.cons.inj hb).1
      rw [UInt8.toNat_ofNat', UInt8.toNat_ofNat'] at hbyte
      change (c'.toNat * 8 + digitValue d) % 256 = c'.toNat % 256 at hbyte
      rw [Nat.mod_eq_of_lt (by omega), Nat.mod_eq_of_lt (by omega)] at hbyte
      omega

/-- **When a text comes back** out of ANSI-C quotes. -/
theorem decoded_readBack_iff (hs : '\x00' ∉ s) :
    decoded (readBack s) = s ↔ Apart s := by
  induction s with
  | nil => exact iff_of_true rfl fun l c d r h => by simp at h
  | cons c s ih =>
    obtain ⟨hc, hs⟩ := not_or.1 fun h => hs (List.mem_cons.2 h)
    rw [apart_cons]
    rcases merges_or_apart c s with ⟨d, s, rfl, hm⟩ | hap
    · rw [readBack_merged hm]
      refine iff_of_false (decoded_merged (fun h => hc h.symm) hm) ?_
      rintro ⟨hnot, -⟩
      have hd : isOctalDigit d = false := hnot (Bool.and_eq_true _ _ ▸ hm).1
      exact absurd ((Bool.and_eq_true _ _ ▸ hm).2.symm.trans hd) (by decide)
    · rw [readBack_apart hap, decoded_encode, List.cons_inj_right, ih hs]
      exact (and_iff_right hap).symm

theorem decoded_encoded (s : List Char) : decoded (s.flatMap String.utf8EncodeChar) = s := by
  induction s with
  | nil => rfl
  | cons c s ih => rw [List.flatMap_cons, decoded_encode, ih]

theorem readBack_eq_iff (hs : '\x00' ∉ s) :
    readBack s = s.flatMap String.utf8EncodeChar ↔ Apart s := by
  constructor
  · intro h
    rw [← decoded_readBack_iff hs, h, decoded_encoded]
  · intro h
    clear hs
    induction s with
    | nil => rfl
    | cons c s ih =>
      obtain ⟨hc, hrest⟩ := apart_cons.1 h
      rw [readBack_apart hc, ih hrest, List.flatMap_cons]

end Seahaven.Shell
