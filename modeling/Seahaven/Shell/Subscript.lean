import Mathlib.Data.List.Nodup
import Mathlib.Data.Finset.Range
import Mathlib.Data.Finset.Card
import Seahaven.Shell.Decimal
import Seahaven.Shell.Failed

/-!
# Subscripts of indexed arrays

The keys of an indexed array are any numbers of 64 bits. A negative subscript is to count from the
largest key, but is taken from the number of elements; and the keys and sums that the code computes
may not fit.

1. `subscript`: the key that a subscript denotes, and `followsBash_iff`, the arrays in which it is
   the key that is used.
2. `literalKeys`: the keys of a literal, and `continues_iff`, those that are computed without
   overflow.
3. `addsIntegers_iff`: the sums.
-/

namespace Seahaven.Shell

open Std

def nextKey (values : ExtTreeMap Nat (List Char)) : Nat :=
  (values.maxKey?.map (· + 1)).getD 0

/-- The key that a subscript denotes: a negative one counts from the largest key. -/
def subscript (values : ExtTreeMap Nat (List Char)) (index : List Char) : Except Fault Nat :=
  let indexValue := (parseI64 index).getD 0
  if indexValue < 0 then
    if (nextKey values : Int) + indexValue < 0 then .error (.error (.arrayIndexOutOfRange index))
    else .ok ((nextKey values : Int) + indexValue).toNat
  else .ok indexValue.toNat

/-- `get_at` of an indexed array. -/
def getAt (values : ExtTreeMap Nat (List Char)) (index : List Char) :
    Except Fault (Option (List Char)) :=
  match getKeyForIndexedArray values index with
  | .error e => .error e
  | .ok key => .ok values[key]?

/-! ## Negative subscripts -/

theorem size_le_nextKey (values : ExtTreeMap Nat (List Char)) : values.size ≤ nextKey values := by
  have hkeys : ∀ k ∈ values.keys, k < nextKey values := by
    intro k hk
    have hmem : k ∈ values := ExtTreeMap.mem_of_mem_keys hk
    unfold nextKey
    cases hmax : values.maxKey? with
    | none =>
      rw [ExtTreeMap.maxKey?_eq_none_iff] at hmax
      rw [hmax] at hmem
      exact absurd hmem ExtTreeMap.not_mem_empty
    | some largest =>
      have hle := (ExtTreeMap.maxKey?_eq_some_iff_mem_and_forall.1 hmax).2 k hmem
      rw [Nat.isLE_compare] at hle
      exact Nat.lt_succ_of_le hle
  have hnodup : values.keys.Nodup := ExtTreeMap.nodup_keys
  have hcard : values.keys.toFinset.card ≤ (Finset.range (nextKey values)).card :=
    Finset.card_le_card fun k hk => Finset.mem_range.2 (hkeys k (List.mem_toFinset.1 hk))
  rwa [List.toFinset_card_of_nodup hnodup, Finset.card_range, ExtTreeMap.length_keys] at hcard

/-- The subscript is not negative, or out of range, or the array has all keys up to its largest. -/
def CountsFromLargest (values : ExtTreeMap Nat (List Char)) (index : List Char) : Prop :=
  0 ≤ (parseI64 index).getD 0 ∨ (nextKey values : Int) + (parseI64 index).getD 0 < 0 ∨
    values.size = nextKey values

theorem getKey_eq_subscript_iff (values : ExtTreeMap Nat (List Char)) (index : List Char) :
    getKeyForIndexedArray values index = subscript values index ↔
      CountsFromLargest values index := by
  have hsize := size_le_nextKey values
  unfold getKeyForIndexedArray subscript CountsFromLargest
  generalize (parseI64 index).getD 0 = i
  dsimp only
  split_ifs with hneg hout hout'
  · exact iff_of_true rfl (.inr (.inl hout'))
  · refine iff_of_false nofun ?_
    omega
  · omega
  · rw [Except.ok.injEq]
    omega
  · exact iff_of_true rfl (.inl (by omega))

section

variable [Casing]

/-- What `assign_at_index` stores in an indexed array, by the key it uses. -/
def storeAtKey (v : ShellVariable) (values : ExtTreeMap Nat (List Char)) (s : List Char)
    (append : Bool) : Except Fault Nat → Attempt ShellVariable Unit
  | .error e => (.error e, v)
  | .ok key => (.ok (), v.setValue
      (.indexedArray (values.insert key (v.elementValue values[key]? s append))))

theorem assignAtIndex_indexed {v : ShellVariable} {values : ExtTreeMap Nat (List Char)}
    (hv : v.value = .indexedArray values) (index : List Char) {value s : List Char}
    (hs : v.convertValueStr value = .ok s) (append : Bool) :
    v.assignAtIndex index value append =
      storeAtKey v values s append (getKeyForIndexedArray values index) := by
  unfold ShellVariable.assignAtIndex ShellVariable.storeAtIndex
  rw [hv]
  dsimp only
  rw [hs]
  dsimp only
  cases getKeyForIndexedArray values index <;> rfl

omit [Casing] in
theorem storeAtKey_injective {values : ExtTreeMap Nat (List Char)} {r r' : Except Fault Nat}
    (h : ∀ s, storeAtKey (.new (.indexedArray values)) values s false r =
      storeAtKey (.new (.indexedArray values)) values s false r') : r = r' := by
  cases r with
  | error e =>
    cases r' with
    | error e' => exact congrArg _ (Except.error.inj (congrArg Prod.fst (h [])))
    | ok key' => cases congrArg Prod.fst (h [])
  | ok key =>
    cases r' with
    | error e' => cases congrArg Prod.fst (h [])
    | ok key' =>
      by_contra hne
      have hkeys : key ≠ key' := fun hkey => hne (congrArg _ hkey)
      -- a text that is not there yet tells the two keys apart
      have hmaps := congrArg (fun r => r.2.value) (h ('x' :: values[key']?.getD []))
      have hvalues := congrArg (·[key']?) (ShellValue.indexedArray.inj hmaps)
      rw [ExtTreeMap.getElem?_insert, ExtTreeMap.getElem?_insert_self,
        if_neg fun hcmp => hkeys (LawfulEqCmp.eq_of_compare hcmp)] at hvalues
      have hlength := congrArg (fun s => (s.getD []).length) hvalues
      change (values[key']?.getD []).length = (values[key']?.getD []).length + 1 at hlength
      omega

/-- Each operation acts on the element that the subscript denotes. -/
structure FollowsBash (values : ExtTreeMap Nat (List Char)) (index : List Char) : Prop where
  get : getAt values index = (subscript values index).map fun key => values[key]?
  assign : ∀ v : ShellVariable, v.value = .indexedArray values →
    ∀ value append s, v.convertValueStr value = .ok s →
      v.assignAtIndex index value append = storeAtKey v values s append (subscript values index)
  unset : ∀ v : ShellVariable, v.value = .indexedArray values →
    v.unsetIndex index =
      match subscript values index with
      | .error e => (.error e, v)
      | .ok key => (.ok (values.contains key), v.setValue (.indexedArray (values.erase key)))

theorem followsBash_iff (values : ExtTreeMap Nat (List Char)) (index : List Char) :
    FollowsBash values index ↔ CountsFromLargest values index := by
  rw [← getKey_eq_subscript_iff]
  constructor
  · intro h
    refine @storeAtKey_injective values _ _ fun s => ?_
    rw [← assignAtIndex_indexed rfl index rfl false]
    exact h.assign _ rfl s false s rfl
  · intro hkey
    refine ⟨?_, fun v hv value append s hs => ?_, fun v hv => ?_⟩
    · unfold getAt
      rw [hkey]
      cases subscript values index with
      | error e => rfl
      | ok key => rfl
    · rw [assignAtIndex_indexed hv index hs append, hkey]
    · cases hsubscript : subscript values index with
      | error e =>
        rw [hsubscript] at hkey
        simp only [ShellVariable.unsetIndex, hv, hkey]
      | ok key =>
        rw [hsubscript] at hkey
        simp only [ShellVariable.unsetIndex, hv, hkey]

end

/-! ## Keys of literals -/

/-- `u64::checked_add(1)`. -/
def checkedSucc (key : Nat) : Option Nat := if key + 1 < 2 ^ 64 then some (key + 1) else none

def literalKey (next : Nat) : Option (List Char) → Nat
  | some key => (parseU64 key).getD 0
  | none => next

/-- One turn of `update_indexed_array_from_literals`, with the addition checked. -/
def insertChecked (s : Nat × ExtTreeMap Nat (List Char))
    (literal : Option (List Char) × List Char) : Option (Nat × ExtTreeMap Nat (List Char)) :=
  let newKey := literalKey s.1 literal.1
  (checkedSucc newKey).map fun next => (next, s.2.insert newKey literal.2)

/-- `update_indexed_array_from_literals`, with the additions checked. -/
def updateChecked (existing : ExtTreeMap Nat (List Char))
    (literals : List (Option (List Char) × List Char)) :
    Option (ExtTreeMap Nat (List Char)) :=
  let newKey := match existing.maxKey? with
    | some largest => checkedSucc largest
    | none => some 0
  newKey.bind fun newKey => (literals.foldlM insertChecked (newKey, existing)).map Prod.snd

/-- The keys of the elements of a literal: one without a key follows the one before it. -/
def literalKeys : Nat → List (Option (List Char) × List Char) → List Nat
  | _, [] => []
  | next, (key, _) :: literals =>
    literalKey next key :: literalKeys (literalKey next key + 1) literals

/-- Stores the elements of a literal under their keys, from the one after the largest on. -/
def continued (existing : ExtTreeMap Nat (List Char))
    (literals : List (Option (List Char) × List Char)) : ExtTreeMap Nat (List Char) :=
  insertPairs existing ((literalKeys (nextKey existing) literals).zip (literals.map Prod.snd))

/-- No addition overflows, and the literal is stored from the key after the largest on. -/
structure Continues (existing : ExtTreeMap Nat (List Char))
    (literals : List (Option (List Char) × List Char)) : Prop where
  defined : (updateChecked existing literals).isSome
  stored : ShellValue.updateIndexedArrayFromLiterals existing literals =
    continued existing literals

def HasRoom (existing : ExtTreeMap Nat (List Char))
    (literals : List (Option (List Char) × List Char)) : Prop :=
  nextKey existing < 2 ^ 64 ∧ ∀ key ∈ literalKeys (nextKey existing) literals, key + 1 < 2 ^ 64

theorem insertLiteral_eq (s : Nat × ExtTreeMap Nat (List Char))
    (literal : Option (List Char) × List Char) :
    ShellValue.insertLiteral s literal = ((literalKey s.1 literal.1 + 1) % 2 ^ 64,
      s.2.insert (literalKey s.1 literal.1) literal.2) := by
  obtain ⟨_ | key, value⟩ := literal <;> rfl

theorem foldlM_insertChecked (literals : List (Option (List Char) × List Char)) :
    ∀ (next : Nat) (values : ExtTreeMap Nat (List Char)),
      (literals.foldlM insertChecked (next, values)).isSome ↔
        ∀ key ∈ literalKeys next literals, key + 1 < 2 ^ 64 := by
  induction literals with
  | nil => exact fun _ _ => iff_of_true rfl nofun
  | cons l literals ih =>
    obtain ⟨key, value⟩ := l
    intro next values
    rw [List.foldlM_cons, literalKeys, List.forall_mem_cons, insertChecked, checkedSucc]
    dsimp only
    split_ifs with hroom
    · exact (ih _ _).trans (and_iff_right hroom).symm
    · exact iff_of_false nofun fun h => hroom h.1

theorem foldl_insertLiteral (literals : List (Option (List Char) × List Char)) :
    ∀ (next : Nat) (values : ExtTreeMap Nat (List Char)),
      (∀ key ∈ literalKeys next literals, key + 1 < 2 ^ 64) →
      (literals.foldl ShellValue.insertLiteral (next, values)).2 =
        insertPairs values ((literalKeys next literals).zip (literals.map Prod.snd)) := by
  induction literals with
  | nil => exact fun _ _ _ => rfl
  | cons l literals ih =>
    obtain ⟨key, value⟩ := l
    intro next values h
    rw [literalKeys, List.forall_mem_cons] at h
    rw [List.foldl_cons, literalKeys, insertLiteral_eq, Nat.mod_eq_of_lt h.1]
    exact ih _ _ h.2

theorem continues_iff (existing : ExtTreeMap Nat (List Char))
    (literals : List (Option (List Char) × List Char)) :
    Continues existing literals ↔ HasRoom existing literals := by
  have hdefined : (updateChecked existing literals).isSome ↔ HasRoom existing literals := by
    unfold updateChecked HasRoom nextKey
    cases existing.maxKey? with
    | none =>
      rw [Option.map_none, Option.getD_none]
      refine Iff.trans ?_ (and_iff_right (by decide)).symm
      rw [← foldlM_insertChecked literals 0 existing]
      dsimp only
      rw [Option.bind_some, Option.isSome_map]
    | some largest =>
      rw [Option.map_some, Option.getD_some]
      dsimp only
      unfold checkedSucc
      split_ifs with hroom
      · refine Iff.trans ?_ (and_iff_right hroom).symm
        rw [← foldlM_insertChecked literals (largest + 1) existing, Option.bind_some,
          Option.isSome_map]
      · exact iff_of_false nofun fun h => hroom h.1
  refine ⟨fun h => hdefined.1 h.defined, fun h => ⟨hdefined.2 h, ?_⟩⟩
  unfold ShellValue.updateIndexedArrayFromLiterals continued
  rw [← foldl_insertLiteral literals _ existing h.2]
  have hnext := h.1
  unfold nextKey at hnext ⊢
  cases hmax : existing.maxKey? with
  | none => rfl
  | some largest =>
    rw [hmax, Option.map_some, Option.getD_some] at hnext
    rw [Option.map_some, Option.getD_some]
    dsimp only
    rw [Nat.mod_eq_of_lt hnext]

/-! ## Sums -/

/-- The sum of an append to a variable that is treated as an integer is what the sum is. -/
structure AddsIntegers [Casing] (existing appended : List Char) : Prop where
  whole : ∀ v : ShellVariable, v.readonly = false → v.treatAsInteger = true →
    v.value = .string existing →
      v.assign (.scalar appended) true = (.ok (), v.setValue
        (.string (i64ToString ((parseI64 existing).getD 0 + (parseI64 appended).getD 0))))
  element : ∀ v : ShellVariable, v.treatAsInteger = true →
    v.elementValue (some existing) appended true =
      i64ToString ((parseI64 existing).getD 0 + (parseI64 appended).getD 0)

theorem parseI64_i64ToString_of_not {n : Int} (h : ¬ IsI64 n) :
    parseI64 (i64ToString n) = none := by
  unfold IsI64 at h
  rcases Int.eq_nat_or_neg n with ⟨m, rfl | rfl⟩
  · rw [i64ToString_ofNat, (parse_toDigits m).1, if_neg (by omega)]
  · have hm : m ≠ 0 := by omega
    rw [i64ToString_neg hm, parseI64, parseDigits_toDigits, Option.bind_some, if_neg (by omega)]

theorem i64ToString_bmod_iff (n : Int) :
    i64ToString (n.bmod (2 ^ 64)) = i64ToString n ↔ IsI64 n := by
  have hrange : IsI64 (n.bmod (2 ^ 64)) := ⟨Int.le_bmod (by decide), Int.bmod_lt (by decide)⟩
  constructor
  · intro h
    by_contra hn
    have hparse := parseI64_i64ToString hrange
    rw [h, parseI64_i64ToString_of_not hn] at hparse
    cases hparse
  · rintro ⟨hlow, hhigh⟩
    rw [Int.bmod_eq_of_le (by omega) (by omega)]

theorem addsIntegers_iff [Casing] (existing appended : List Char) :
    AddsIntegers existing appended ↔
      IsI64 ((parseI64 existing).getD 0 + (parseI64 appended).getD 0) := by
  rw [← i64ToString_bmod_iff]
  constructor
  · intro h
    exact h.element { ShellVariable.new (.unset .untyped) with treatAsInteger := true } rfl
  · intro hsum
    refine ⟨fun v hro hint hv => ?_, fun v hint => ?_⟩
    · have hconvert : v.convertValueLiteral (.scalar appended) =
          .ok (.scalar (i64ToString ((parseI64 appended).getD 0))) := by
        have hstr : v.convertValueStr appended =
            .ok (i64ToString ((parseI64 appended).getD 0)) := by
          unfold ShellVariable.convertValueStr ShellVariable.applyValueTransforms
          rw [if_pos hint]
        rw [ShellVariable.convertValueLiteral, hstr]
        rfl
      have hadd : addAsI64 existing (i64ToString ((parseI64 appended).getD 0)) =
          i64ToString ((parseI64 existing).getD 0 + (parseI64 appended).getD 0) := by
        rw [addAsI64, parseI64_i64ToString (isI64_parseI64 appended)]
        exact hsum
      unfold ShellVariable.assign
      rw [hro, if_neg Bool.false_ne_true, hconvert]
      dsimp only
      rw [if_pos rfl]
      unfold ShellVariable.prepareAppend
      rw [hv]
      dsimp only
      unfold ShellVariable.appendTo
      rw [hv]
      dsimp only
      rw [if_pos hint, hadd]
    · unfold ShellVariable.elementValue
      rw [if_pos rfl, if_pos hint]
      exact hsum

section

variable [Casing]

/-- **Subscripts.** A subscript denotes the element that it denotes in bash exactly if it is not
negative, or out of range, or the array has all keys up to its largest; the keys of a literal are
computed without overflow exactly if each has one after it, and a sum exactly if it fits. -/
theorem subscripts_iff :
    (∀ values index, FollowsBash values index ↔ CountsFromLargest values index) ∧
      (∀ existing literals, Continues existing literals ↔ HasRoom existing literals) ∧
      ∀ existing appended, AddsIntegers existing appended ↔
        IsI64 ((parseI64 existing).getD 0 + (parseI64 appended).getD 0) :=
  ⟨followsBash_iff, continues_iff, addsIntegers_iff⟩

end

/-- `x=([5]=a)`: `${x[-1]}` is the element at `0`, where there is none. -/
theorem not_followsBash_sparse :
    ¬ @FollowsBash asciiCasing ((∅ : ExtTreeMap Nat (List Char)).insert 5 ['a']) ['-', '1'] := by
  let _ := asciiCasing
  have hnext : nextKey ((∅ : ExtTreeMap Nat (List Char)).insert 5 ['a']) = 6 := by
    rw [nextKey, ExtTreeMap.maxKey?_insert, ExtTreeMap.maxKey?_empty]
    rfl
  have hsize : ((∅ : ExtTreeMap Nat (List Char)).insert 5 ['a']).size = 1 := by
    rw [ExtTreeMap.size_insert, ExtTreeMap.contains_empty, if_neg Bool.false_ne_true,
      ExtTreeMap.size_empty]
  have hindex : (parseI64 ['-', '1']).getD 0 = -1 := by decide
  rw [followsBash_iff, CountsFromLargest, hnext, hsize, hindex]
  decide

end Seahaven.Shell
