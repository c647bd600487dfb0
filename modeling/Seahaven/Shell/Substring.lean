import Mathlib.Tactic.SplitIfs
import Seahaven.Lib.Offsets
import Seahaven.Shell.Fields
import Seahaven.Shell.Transform

/-!
# Substrings

`${p:offset:length}` takes a range of the elements of an array, or of the characters of a text. The
size of a text is computed in bytes, and its range in characters.

1. `sliceBounds`, `polymorphicSubslice`: where the range starts and stops, and what is copied.
2. `textOf_subslice`: what is copied of a text is the range.
3. `substrings_iff`: when a substring is the range that the shell defines.
-/

namespace Seahaven.Shell

open Offsets

/-! ## Sizes and slices -/

/-- `WordField::len`, in bytes. -/
def fieldLen (field : WordField) : Nat :=
  field.foldl (fun acc piece => acc + byteLen piece.asStr) 0

namespace Expansion

def polymorphicLen (e : Expansion) : Nat :=
  if e.fromArray then e.fields.length else e.fields.foldl (fun acc field => acc + fieldLen field) 0

end Expansion

def ExpansionPiece.mapStr (f : List Char → List Char) : ExpansionPiece → ExpansionPiece
  | .unsplittable s => .unsplittable (f s)
  | .splittable s => .splittable (f s)

/-- The pieces copied of a field, the distance to the slice behind it, and how many characters are
left to be copied. -/
def slicePieces (dist left : Nat) : List ExpansionPiece → List ExpansionPiece × Nat × Nat
  | [] => ([], dist, left)
  | piece :: pieces =>
    if left = 0 then ([], dist, left)
    else if piece.asStr.length ≤ dist then slicePieces (dist - piece.asStr.length) left pieces
    else
      let taken := min left (piece.asStr.length - dist)
      let (copied, dist', left') := slicePieces 0 (left - taken) pieces
      (piece.mapStr (fun s => (s.drop dist).take taken) :: copied, dist', left')

def sliceFields (dist left : Nat) : List WordField → List WordField
  | [] => []
  | field :: fields =>
    let (pieces, dist', left') := slicePieces dist left field
    if pieces = [] then sliceFields dist' left' fields else pieces :: sliceFields dist' left' fields

/-- `polymorphic_subslice`. Where the slice stops before it starts, or starts beyond the elements,
a difference overflows. -/
def Expansion.polymorphicSubslice (e : Expansion) (index stop : Nat) : Option Expansion :=
  if stop < index then none
  else if e.fromArray then
    if e.fields.length < index then none
    else
      let actualLen := min (stop - index) (e.fields.length - index)
      some { e with fields := (e.fields.drop index).take actualLen }
  else some { e with fields := sliceFields index (stop - index) e.fields }

/-- A number, if it does not leave the range of `i64`. -/
def checkedI64 (n : Int) : Option Int := if -2 ^ 63 ≤ n ∧ n < 2 ^ 63 then some n else none

def fromStart (offset len : Int) : Option Int :=
  if offset < 0 then (checkedI64 (offset + len)).map fun offset => if offset < 0 then len else offset
  else some offset

def fromLength (length len : Int) : Option Int :=
  if length < 0 then checkedI64 (length + len) else some length

/-- The end offset. -/
def endOffset (offset len : Int) : Option Int64 → Option Int
  | none => some len
  | some length => do
    let length ← fromLength length.toInt len
    let rest ← checkedI64 (len - offset)
    checkedI64 (offset + min length rest)

/-- Where a substring starts and stops in a parameter of a size, as the `Substring` case of
`expand_parameter_expr` computes it. -/
def sliceBounds (len : Nat) (offset : Int64) (length : Option Int64) : Option (Int × Int) := do
  let len := (len : Int).bmod (2 ^ 64)
  let offset ← fromStart offset.toInt len
  let stop ← endOffset (min offset len) len length
  some (min offset len, stop)

/-- `as usize`. -/
def asUsize (n : Int) : Nat := (n % 2 ^ 64).toNat

/-- What a parameter expands to. Where it is `@` or `*`, the name of the shell is an element too, in
front of the parameters. -/
structure ParameterValue where
  expansion : Expansion
  shellName : Option (List Char) := none
  fromArray_of_positional : shellName.isSome → expansion.fromArray = true

namespace ParameterValue

def sliced (v : ParameterValue) : Expansion :=
  match v.shellName with
  | none => v.expansion
  | some name =>
    { v.expansion with fields := [ExpansionPiece.splittable name] :: v.expansion.fields }

/-- The `ParameterLength` case of `expand_parameter_expr`. -/
def lengthExpansion (v : ParameterValue) : Expansion :=
  .ofPiece (.splittable (Nat.toDigits 10 v.expansion.polymorphicLen))

/-- The `Substring` case of `expand_parameter_expr`. -/
def substring (v : ParameterValue) (offset : Int64) (length : Option Int64) : Option Expansion := do
  let (start, stop) ← sliceBounds v.sliced.polymorphicLen offset length
  v.sliced.polymorphicSubslice (asUsize start) (asUsize stop)

end ParameterValue

/-! ## Ranges -/

def rangeStart (len : Nat) (offset : Int64) : Int :=
  if offset.toInt < 0 then offset.toInt + len else offset.toInt

def rangeStop (len : Nat) (offset : Int64) : Option Int64 → Int
  | none => len
  | some length =>
    if length.toInt < 0 then len + length.toInt
    else min (rangeStart len offset + length.toInt) len

def elementRange {α : Type} (l : List α) (offset : Int64) (length : Option Int64) : List α :=
  let start := rangeStart l.length offset
  if start < 0 ∨ l.length < start then []
  else (l.drop start.toNat).take (rangeStop l.length offset length - start).toNat

def textOf (fields : List WordField) : List Char := fields.flatMap charsOf

def Expansion.count (e : Expansion) : Nat :=
  if e.fromArray then e.fields.length else (textOf e.fields).length

def Expansion.IsRange (r e : Expansion) (offset : Int64) (length : Option Int64) : Prop :=
  r.fromArray = e.fromArray ∧ r.concatenate = e.concatenate ∧ r.undefined = e.undefined ∧
    if e.fromArray then r.fields = elementRange e.fields offset length
    else textOf r.fields = elementRange (textOf e.fields) offset length

namespace ParameterValue

/-- The size of what is in memory is an `isize`. -/
def Fits (v : ParameterValue) : Prop := v.sliced.polymorphicLen < 2 ^ 63

/-- What the expansions of a substring and of the length promise: no number wraps, and the substring
is the range of the elements that the length counts. -/
structure Substrings (v : ParameterValue) (offset : Int64) (length : Option Int64) : Prop where
  bounds : ∃ start stop, sliceBounds v.sliced.polymorphicLen offset length = some (start, stop) ∧
    0 ≤ start ∧ start ≤ stop
  range : ∃ r, v.substring offset length = some r ∧ r.IsRange v.sliced offset length
  length : v.lengthExpansion = .ofPiece (.splittable (Nat.toDigits 10 v.expansion.count))

end ParameterValue

/-! ## Bounds -/

def sliceStart (len : Nat) (offset : Int64) : Int :=
  min (if offset.toInt < 0 then (if offset.toInt + len < 0 then (len : Int) else offset.toInt + len)
    else offset.toInt) len

def sliceExtent (len : Nat) (offset : Int64) : Option Int64 → Int
  | none => len - sliceStart len offset
  | some length =>
    min (if length.toInt < 0 then length.toInt + len else length.toInt)
      (len - sliceStart len offset)

theorem sliceStart_range (len : Nat) (offset : Int64) :
    0 ≤ sliceStart len offset ∧ sliceStart len offset ≤ len := by
  unfold sliceStart
  split_ifs <;> omega

theorem checkedI64_eq {n : Int} (h : IsI64 n) : checkedI64 n = some n := if_pos h

theorem isI64_toInt (n : Int64) : IsI64 n.toInt := ⟨n.le_toInt, n.toInt_lt⟩

theorem endOffset_eq {len : Nat} (hlen : len < 2 ^ 63) (offset : Int64) (length : Option Int64) :
    endOffset (sliceStart len offset) len length =
      some (sliceStart len offset + sliceExtent len offset length) := by
  obtain ⟨hstart, hstart'⟩ := sliceStart_range len offset
  cases length with
  | none =>
    rw [endOffset, sliceExtent]
    congr 1
    omega
  | some length =>
    obtain ⟨hlow, hhigh⟩ := isI64_toInt length
    have hlength : fromLength length.toInt len =
        some (if length.toInt < 0 then length.toInt + len else length.toInt) := by
      unfold fromLength
      split_ifs with hneg
      · exact checkedI64_eq ⟨by omega, by omega⟩
      · rfl
    rw [endOffset, hlength, checkedI64_eq (n := len - sliceStart len offset) ⟨by omega, by omega⟩]
    refine checkedI64_eq ?_
    constructor
    · split_ifs <;> omega
    · omega

theorem sliceBounds_eq {len : Nat} (hlen : len < 2 ^ 63) (offset : Int64) (length : Option Int64) :
    sliceBounds len offset length =
      some (sliceStart len offset, sliceStart len offset + sliceExtent len offset length) := by
  have hcast : (len : Int).bmod (2 ^ 64) = len := by
    rw [Int.bmod_eq_of_le] <;> omega
  obtain ⟨hlow, hhigh⟩ := isI64_toInt offset
  have hoffset : fromStart offset.toInt len = some (if offset.toInt < 0 then
      (if offset.toInt + len < 0 then (len : Int) else offset.toInt + len) else offset.toInt) := by
    unfold fromStart
    split_ifs with hneg hneg'
    · rw [checkedI64_eq ⟨by omega, by omega⟩, Option.map_some, if_pos hneg']
    · rw [checkedI64_eq ⟨by omega, by omega⟩, Option.map_some, if_neg hneg']
    · rfl
  unfold sliceBounds
  dsimp only
  rw [hcast, hoffset, Option.bind_eq_bind, Option.bind_some, ← sliceStart, endOffset_eq hlen]
  rfl

/-! ## What is copied -/

theorem asStr_mapStr (f : List Char → List Char) (p : ExpansionPiece) :
    (p.mapStr f).asStr = f p.asStr := by
  cases p <;> rfl

theorem charsOf_slicePieces (dist left : Nat) (field : WordField) (behind : List Char) :
    charsOf (slicePieces dist left field).1 ++
        (behind.drop (slicePieces dist left field).2.1).take (slicePieces dist left field).2.2 =
      ((charsOf field ++ behind).drop dist).take left := by
  induction field generalizing dist left with
  | nil => rfl
  | cons piece pieces ih =>
    have hchars : charsOf (piece :: pieces) ++ behind =
        piece.asStr ++ (charsOf pieces ++ behind) := by
      rw [charsOf, List.flatMap_cons, List.append_assoc]
      rfl
    unfold slicePieces
    split_ifs with hleft hdist
    · rw [hleft, List.take_zero, List.take_zero]
      rfl
    · rw [ih, hchars, @List.drop_append _ piece.asStr, List.drop_of_length_le hdist,
        List.nil_append]
    · dsimp only
      rw [hchars, charsOf, List.flatMap_cons, asStr_mapStr, List.append_assoc]
      change _ ++ (charsOf _ ++ _) = _
      rw [ih, List.drop_zero, List.drop_append_of_le_length (by omega),
        @List.take_append _ (List.drop dist piece.asStr), List.length_drop]
      rcases Nat.le_total left (piece.asStr.length - dist) with h | h
      · rw [Nat.min_eq_left h, Nat.sub_self, Nat.sub_eq_zero_of_le h]
      · have hall : (piece.asStr.drop dist).length ≤ left := by rwa [List.length_drop]
        rw [Nat.min_eq_right h, List.take_of_length_le hall,
          List.take_of_length_le (by rw [List.length_drop])]

theorem textOf_sliceFields (dist left : Nat) (fields : List WordField) :
    textOf (sliceFields dist left fields) = ((textOf fields).drop dist).take left := by
  induction fields generalizing dist left with
  | nil => simp [sliceFields, textOf]
  | cons field fields ih =>
    have hpieces := charsOf_slicePieces dist left field (textOf fields)
    have htext : textOf (field :: fields) = charsOf field ++ textOf fields := List.flatMap_cons
    rw [htext, ← hpieces, ← ih, sliceFields]
    dsimp only
    split_ifs with hnil
    · rw [hnil]
      rfl
    · exact List.flatMap_cons

theorem polymorphicSubslice_eq {e : Expansion} {index stop : Nat} (h : index ≤ stop)
    (hcount : index ≤ e.count) : ∃ r, e.polymorphicSubslice index stop = some r ∧
      r.fromArray = e.fromArray ∧ r.concatenate = e.concatenate ∧ r.undefined = e.undefined ∧
        if e.fromArray then r.fields = (e.fields.drop index).take (stop - index)
        else textOf r.fields = ((textOf e.fields).drop index).take (stop - index) := by
  unfold Expansion.polymorphicSubslice
  rw [if_neg (by omega)]
  unfold Expansion.count at hcount
  split_ifs at hcount ⊢ with harray hlength
  · omega
  · refine ⟨_, rfl, rfl, rfl, rfl, ?_⟩
    have hdrop : (e.fields.drop index).length = e.fields.length - index := List.length_drop
    dsimp only
    rw [← hdrop]
    exact List.take_eq_take_min.symm
  · exact ⟨_, rfl, rfl, rfl, rfl, textOf_sliceFields _ _ _⟩

/-! ## The range -/

/-- A negative length that denotes the same end from the start as from the end of the elements. -/
def SameEnd (len : Nat) (offset length : Int64) : Prop :=
  0 ≤ length.toInt + len ∧
    (sliceStart len offset = 0 ∨ sliceStart len offset = len ∨ length.toInt + len = 0)

def rangeExtent (len : Nat) (offset : Int64) : Option Int64 → Int
  | none => len - sliceStart len offset
  | some length =>
    if length.toInt < 0 then length.toInt + len - sliceStart len offset
    else min length.toInt (len - sliceStart len offset)

theorem elementRange_eq {α : Type} (l : List α) (offset : Int64) (length : Option Int64) :
    elementRange l offset length =
      (l.drop (sliceStart l.length offset).toNat).take
        (rangeExtent l.length offset length).toNat := by
  unfold elementRange
  dsimp only
  split_ifs with houtside
  · have hend : (sliceStart l.length offset).toNat = l.length := by
      unfold rangeStart at houtside
      unfold sliceStart
      split_ifs at houtside ⊢ <;> omega
    rw [hend, List.drop_length, List.take_nil]
  · have hstart : rangeStart l.length offset = sliceStart l.length offset := by
      unfold rangeStart at houtside ⊢
      unfold sliceStart
      split_ifs at houtside ⊢ <;> omega
    rw [hstart]
    refine congrArg (fun n : Int => (l.drop _).take n.toNat) ?_
    cases length with
    | none => rfl
    | some k =>
      rw [rangeStop, rangeExtent, hstart]
      split_ifs <;> omega

theorem slice_eq_elementRange_iff {α : Type} (l : List α) (offset : Int64)
    {length : Option Int64} (hextent : 0 ≤ sliceExtent l.length offset length) :
    (l.drop (sliceStart l.length offset).toNat).take (sliceExtent l.length offset length).toNat =
      elementRange l offset length ↔
        ∀ k, length = some k → k.toInt < 0 → SameEnd l.length offset k := by
  obtain ⟨hstart, hstart'⟩ := sliceStart_range l.length offset
  rw [elementRange_eq, List.take_eq_take_iff, List.length_drop]
  cases length with
  | none => exact iff_of_true rfl nofun
  | some k =>
    rw [sliceExtent] at hextent ⊢
    rw [rangeExtent]
    constructor
    · rintro h _ ⟨⟩ hneg
      rw [if_pos hneg] at hextent h
      rw [if_pos hneg] at h
      unfold SameEnd
      omega
    · intro h
      unfold SameEnd at h
      split_ifs at hextent ⊢ with hneg
      · have := h k rfl hneg
        omega
      · rfl

/-! ## Bytes and characters -/

theorem fieldLen_eq (field : WordField) : fieldLen field = byteLen (charsOf field) := by
  have hfold : ∀ (l : WordField) (n : Nat),
      l.foldl (fun acc piece => acc + byteLen piece.asStr) n = n + byteLen (charsOf l) := by
    intro l
    induction l with
    | nil => exact fun n => rfl
    | cons piece l ih =>
      intro n
      rw [List.foldl_cons, ih, charsOf, charsOf, List.flatMap_cons, byteLen_append, Nat.add_assoc]
  rw [fieldLen, hfold, Nat.zero_add]

theorem polymorphicLen_text {e : Expansion} (h : e.fromArray = false) :
    e.polymorphicLen = byteLen (textOf e.fields) := by
  have hfold : ∀ (l : List WordField) (n : Nat),
      l.foldl (fun acc field => acc + fieldLen field) n = n + byteLen (textOf l) := by
    intro l
    induction l with
    | nil => exact fun n => rfl
    | cons field l ih =>
      intro n
      rw [List.foldl_cons, ih, textOf, textOf, List.flatMap_cons, byteLen_append, fieldLen_eq,
        Nat.add_assoc]
  rw [Expansion.polymorphicLen, h, if_neg Bool.false_ne_true, hfold, Nat.zero_add]

theorem byteLen_eq_length_iff (s : List Char) : byteLen s = s.length ↔ IsAscii s := by
  have hle : ∀ s : List Char, s.length ≤ byteLen s := by
    intro s
    induction s with
    | nil => exact Nat.le_refl 0
    | cons c s ih =>
      have := c.utf8Size_pos
      rw [List.length_cons, byteLen]
      omega
  induction s with
  | nil => exact iff_of_true rfl (List.forall_mem_nil _)
  | cons c s ih =>
    have hpos := c.utf8Size_pos
    have hles := hle s
    have hcons : IsAscii (c :: s) ↔ c.utf8Size = 1 ∧ IsAscii s := List.forall_mem_cons
    rw [byteLen, List.length_cons]
    constructor
    · intro h
      exact hcons.2 ⟨by omega, ih.1 (by omega)⟩
    · intro h
      obtain ⟨hc, hs⟩ := hcons.1 h
      rw [hc, ih.2 hs, Nat.add_comm]

theorem polymorphicLen_eq_count_iff (e : Expansion) :
    e.polymorphicLen = e.count ↔ e.fromArray = true ∨ IsAscii (textOf e.fields) := by
  cases h : e.fromArray with
  | true =>
    rw [Expansion.polymorphicLen, Expansion.count, h]
    exact iff_of_true rfl (.inl rfl)
  | false =>
    rw [polymorphicLen_text h, Expansion.count, h, if_neg Bool.false_ne_true,
      byteLen_eq_length_iff]
    exact (or_iff_right Bool.false_ne_true).symm

theorem toDigits_injective {n m : Nat} (h : Nat.toDigits 10 n = Nat.toDigits 10 m) : n = m := by
  have := parseDigits_toDigits n
  rw [h, parseDigits_toDigits] at this
  exact (Option.some.inj this).symm

/-! ## Substrings -/

namespace ParameterValue

variable {v : ParameterValue}

theorem lengthExpansion_eq_iff : v.lengthExpansion =
    .ofPiece (.splittable (Nat.toDigits 10 v.expansion.count)) ↔
      v.expansion.fromArray = true ∨ IsAscii (textOf v.expansion.fields) := by
  rw [← polymorphicLen_eq_count_iff]
  constructor
  · intro h
    have hfields : [[ExpansionPiece.splittable (Nat.toDigits 10 v.expansion.polymorphicLen)]] =
        [[.splittable (Nat.toDigits 10 v.expansion.count)]] := congrArg Expansion.fields h
    simp only [List.cons.injEq, ExpansionPiece.splittable.injEq, and_true] at hfields
    exact toDigits_injective hfields
  · intro h
    rw [lengthExpansion, h]

theorem sliced_count (h : v.expansion.fromArray = true ∨ IsAscii (textOf v.expansion.fields)) :
    v.sliced.polymorphicLen = v.sliced.count := by
  rw [polymorphicLen_eq_count_iff]
  unfold sliced
  cases hname : v.shellName with
  | none => exact h
  | some name => exact .inl (v.fromArray_of_positional (by rw [hname]; rfl))

/-- When a substring is as it should be: the parameter is an array or made of one-byte characters,
and a length that is negative denotes the same end from where the substring starts as from the end
of the elements. -/
def Denotes (v : ParameterValue) (offset : Int64) (length : Option Int64) : Prop :=
  (v.expansion.fromArray = true ∨ IsAscii (textOf v.expansion.fields)) ∧
    ∀ k, length = some k → k.toInt < 0 → SameEnd v.sliced.count offset k

theorem asUsize_eq {n : Int} (h : 0 ≤ n) (h' : n < 2 ^ 64) : asUsize n = n.toNat := by
  rw [asUsize, Int.emod_eq_of_lt h h']

theorem substring_eq (hfits : v.Fits) (hcount : v.sliced.polymorphicLen = v.sliced.count)
    (offset : Int64) (length : Option Int64)
    (hextent : 0 ≤ sliceExtent v.sliced.count offset length) :
    ∃ r, v.substring offset length = some r ∧ (r.IsRange v.sliced offset length ↔
      ∀ k, length = some k → k.toInt < 0 → SameEnd v.sliced.count offset k) := by
  have hlen : v.sliced.count < 2 ^ 63 := hcount ▸ hfits
  obtain ⟨hstart, hstart'⟩ := sliceStart_range v.sliced.count offset
  have hrest : sliceExtent v.sliced.count offset length ≤
      v.sliced.count - sliceStart v.sliced.count offset := by
    cases length with
    | none => exact Int.le_refl _
    | some k => exact Int.min_le_right _ _
  have hbounds := sliceBounds_eq hlen offset length
  rw [← hcount] at hbounds
  have hstop : (sliceStart v.sliced.count offset + sliceExtent v.sliced.count offset length).toNat =
      (sliceStart v.sliced.count offset).toNat +
        (sliceExtent v.sliced.count offset length).toNat := Int.toNat_add hstart hextent
  obtain ⟨r, hslice, harray, hconcatenate, hundefined, hfields⟩ :=
    polymorphicSubslice_eq (e := v.sliced) (Nat.le_add_right _ _) (Int.toNat_le.2 hstart')
  refine ⟨r, ?_, ?_⟩
  · unfold substring
    rw [hbounds, hcount, Option.bind_eq_bind, Option.bind_some]
    dsimp only
    rw [asUsize_eq hstart (by omega), asUsize_eq (by omega) (by omega), hstop]
    exact hslice
  · rw [Nat.add_sub_cancel_left] at hfields
    unfold Expansion.IsRange
    rw [harray, hconcatenate, hundefined]
    simp only [true_and]
    unfold Expansion.count at hextent hfields ⊢
    split_ifs at hextent hfields ⊢
    · rw [hfields]
      exact slice_eq_elementRange_iff v.sliced.fields offset hextent
    · rw [hfields]
      exact slice_eq_elementRange_iff (textOf v.sliced.fields) offset hextent

/-- **Substrings.** The expansions of a substring and of the length are as they should be, exactly
if the parameter is an array or made of one-byte characters, and a length that is negative denotes
the same end from where the substring starts as from the end of the elements. -/
theorem substrings_iff (v : ParameterValue) (hfits : v.Fits) (offset : Int64)
    (length : Option Int64) : v.Substrings offset length ↔ v.Denotes offset length := by
  constructor
  · intro h
    have hplain := lengthExpansion_eq_iff.1 h.length
    have hcount := sliced_count hplain
    obtain ⟨start, stop, hbounds, -, hle⟩ := h.bounds
    rw [sliceBounds_eq hfits, hcount] at hbounds
    cases hbounds
    obtain ⟨r, hr, hiff⟩ := substring_eq hfits hcount offset length (by omega)
    obtain ⟨r', hr', hrange⟩ := h.range
    obtain rfl := Option.some.inj (hr.symm.trans hr')
    exact ⟨hplain, hiff.1 hrange⟩
  · rintro ⟨hplain, hend⟩
    have hcount := sliced_count hplain
    have hextent : 0 ≤ sliceExtent v.sliced.count offset length := by
      obtain ⟨-, hstart'⟩ := sliceStart_range v.sliced.count offset
      cases length with
      | none =>
        rw [sliceExtent]
        omega
      | some k =>
        rw [sliceExtent]
        split_ifs with hneg
        · have := (hend k rfl hneg).1
          omega
        · omega
    obtain ⟨r, hr, hiff⟩ := substring_eq hfits hcount offset length hextent
    refine ⟨⟨_, _, sliceBounds_eq hfits offset length, ?_, ?_⟩, ⟨r, hr, hiff.2 hend⟩,
      lengthExpansion_eq_iff.2 hplain⟩
    · exact (sliceStart_range _ offset).1
    · rw [hcount]
      omega

end ParameterValue

def ParameterValue.scalar (s : List Char) : ParameterValue where
  expansion := .ofPiece (.splittable s)
  shellName := none
  fromArray_of_positional := fun h => Bool.noConfusion h

/-- `x=hello; "${x:1:3}"`. -/
theorem substrings_hello :
    (ParameterValue.scalar ['h', 'e', 'l', 'l', 'o']).Substrings 1 (some 3) := by
  refine (ParameterValue.substrings_iff _ ?_ 1 (some 3)).2 ⟨.inr ?_, ?_⟩
  · unfold ParameterValue.Fits
    decide
  · exact (byteLen_eq_length_iff _).1 (by decide)
  · rintro k ⟨⟩ h
    exact absurd h (by decide)

/-- `x=hello; "${x:1:-1}"` is `ello`. -/
theorem not_substrings_negative :
    ¬ (ParameterValue.scalar ['h', 'e', 'l', 'l', 'o']).Substrings 1 (some (-1)) := by
  intro h
  obtain ⟨r, hr, hrange⟩ := h.range
  have hfits : (ParameterValue.scalar ['h', 'e', 'l', 'l', 'o']).Fits := by
    unfold ParameterValue.Fits
    decide
  obtain ⟨r', hr', hiff⟩ := ParameterValue.substring_eq hfits (by decide) 1 (some (-1)) (by decide)
  obtain rfl := Option.some.inj (hr.symm.trans hr')
  obtain ⟨-, hstart⟩ := hiff.1 hrange (-1) rfl (by decide)
  revert hstart
  decide

end Seahaven.Shell
