import Mathlib.Data.List.Induction
import Seahaven.Shell.Readonly

/-!
# Failed assignments

An assignment that fails has often begun its work: `assign_at_index` makes an array of the variable
before it looks at the index, and an array that is appended to an associative one is stored element
by element.

1. `stored`, `misaligned`: what the loop over an associative literal stores, and when it fails
   (`updateAssociativeLoop_eq`).
2. `assignAtIndex_keeps_iff`, `assign_keeps_iff`: when a failure leaves the variable as it was.
-/

namespace Seahaven.Shell

open Std

/-! ## Associative literals -/

section

variable {α β : Type} {cmp : α → α → Ordering} [TransCmp cmp] [LawfulEqCmp cmp] [DecidableEq α]

def insertPairs (m : ExtTreeMap α β cmp) (pairs : List (α × β)) : ExtTreeMap α β cmp :=
  pairs.foldl (fun m p => m.insert p.1 p.2) m

def lastValue (pairs : List (α × β)) (key : α) : Option β :=
  (pairs.reverse.find? fun p => p.1 = key).map Prod.snd

theorem lastValue_concat (pairs : List (α × β)) (p : α × β) (key : α) :
    lastValue (pairs ++ [p]) key = if p.1 = key then some p.2 else lastValue pairs key := by
  unfold lastValue
  rw [List.reverse_concat, List.find?_cons]
  split_ifs with h
  · simp [h]
  · simp [h]

theorem getElem?_insertPairs (m : ExtTreeMap α β cmp) (pairs : List (α × β)) (key : α) :
    (insertPairs m pairs)[key]? = (lastValue pairs key).or m[key]? := by
  induction pairs using List.reverseRecOn with
  | nil => rfl
  | append_singleton pairs p ih =>
    have hlast : insertPairs m (pairs ++ [p]) = (insertPairs m pairs).insert p.1 p.2 := by
      unfold insertPairs
      rw [List.foldl_append]
      rfl
    rw [hlast, ExtTreeMap.getElem?_insert, lastValue_concat, ih]
    by_cases h : p.1 = key
    · rw [if_pos (LawfulEqCmp.compare_eq_iff_eq.2 h), if_pos h, Option.some_or]
    · rw [if_neg fun hcmp => h (LawfulEqCmp.compare_eq_iff_eq.1 hcmp), if_neg h]

theorem insertPairs_eq_self_iff (m : ExtTreeMap α β cmp) (pairs : List (α × β)) :
    insertPairs m pairs = m ↔ ∀ key b, lastValue pairs key = some b → m[key]? = some b := by
  constructor
  · intro h key b hb
    have hkey := getElem?_insertPairs m pairs key
    rwa [h, hb, Option.some_or] at hkey
  · intro h
    refine ExtTreeMap.ext_getElem? fun key => ?_
    rw [getElem?_insertPairs]
    cases hb : lastValue pairs key with
    | none => rw [Option.none_or]
    | some b => rw [h key b hb, Option.some_or]

end

def misaligned : Option (List Char) → List (Option (List Char) × List Char) → Bool
  | _, [] => false
  | some _, (key, _) :: literals => key.isSome || misaligned none literals
  | none, (some _, _) :: literals => misaligned none literals
  | none, (none, value) :: literals => misaligned (some value) literals

/-- The pairs that a literal stores, up to where it is misaligned. -/
def stored : Option (List Char) → List (Option (List Char) × List Char) →
    List (List Char × List Char)
  | some currentKey, [] => [(currentKey, [])]
  | none, [] => []
  | some currentKey, (key, value) :: literals =>
    if key.isSome then [] else (currentKey, value) :: stored none literals
  | none, (some key, value) :: literals => (key, value) :: stored none literals
  | none, (none, value) :: literals => stored (some value) literals

theorem updateAssociativeLoop_eq (literals : List (Option (List Char) × List Char)) :
    ∀ (current : Option (List Char)) (values : ExtTreeMap (List Char) (List Char)),
      ShellValue.updateAssociativeLoop current literals values =
        (if misaligned current literals then
            Except.error (Fault.error
              (.unimplemented "misaligned keys/values in associative array literal"))
          else Except.ok (), insertPairs values (stored current literals)) := by
  induction literals with
  | nil =>
    intro current values
    cases current <;> rfl
  | cons l literals ih =>
    obtain ⟨key, value⟩ := l
    intro current values
    cases current with
    | some currentKey =>
      cases key with
      | some key => rfl
      | none => exact ih none _
    | none =>
      cases key with
      | some key => exact ih none _
      | none => exact ih (some value) values

/-! ## Failures -/

def Keeps (v : ShellVariable) (r : Attempt ShellVariable Unit) : Prop :=
  ∀ e, r.1 = .error (.error e) → r.2 = v

def Fails (r : Attempt ShellVariable Unit) : Prop := ∃ e, r.1 = .error (.error e)

variable {w : ShellVariable}

theorem not_fails_ok : ¬ Fails (.ok (), w) := fun ⟨_, h⟩ => nomatch h

theorem not_fails_panic : ¬ Fails (.error .panic, w) :=
  fun ⟨_, h⟩ => nomatch h

variable {v : ShellVariable}

theorem keeps_of_not_fails {r : Attempt ShellVariable Unit} (h : ¬ Fails r) :
    Keeps v r := fun e he => absurd ⟨e, he⟩ h

theorem keeps_of_eq {r : Attempt ShellVariable Unit} (h : r.2 = v) :
    Keeps v r := fun _ _ => h

theorem keeps_of_ok : Keeps v (.ok (), w) := keeps_of_not_fails not_fails_ok

theorem keeps_of_panic : Keeps v (.error .panic, w) :=
  keeps_of_not_fails not_fails_panic

theorem map_eq_error_iff {ε α β : Type} {f : α → β} {r : Except ε α} {e : ε} :
    r.map f = .error e ↔ r = .error e := by
  cases r with
  | error e' => rw [Except.map, Except.error.injEq, Except.error.injEq]
  | ok a => exact iff_of_false nofun nofun

theorem exists_of_mapM_error {ε α β : Type} {f : α → Except ε β} {e : ε} :
    ∀ {l : List α}, l.mapM f = .error e → ∃ a ∈ l, f a = .error e := by
  intro l
  induction l with
  | nil => exact fun h => nomatch h
  | cons a l ih =>
    intro h
    rw [List.mapM_cons] at h
    cases ha : f a with
    | error e' =>
      rw [ha] at h
      cases h
      exact ⟨a, List.mem_cons_self, ha⟩
    | ok b =>
      rw [ha] at h
      cases hl : l.mapM f with
      | error e' =>
        rw [hl] at h
        cases h
        obtain ⟨x, hx, hfx⟩ := ih hl
        exact ⟨x, List.mem_cons_of_mem a hx, hfx⟩
      | ok bs =>
        rw [hl] at h
        cases h

namespace ShellVariable

theorem setValue_eq_self_iff (v : ShellVariable) (value : ShellValue) :
    v.setValue value = v ↔ value = v.value := by
  constructor
  · intro h
    rw [← h]
    rfl
  · rintro rfl
    rfl

variable [Casing]

variable {e : Fault}

theorem convertValueStr_panics {s : List Char}
    (h : v.convertValueStr s = .error e) : e = .panic := by
  unfold convertValueStr applyValueTransforms at h
  split at h
  · cases h
  · split at h
    · cases h
    · cases h
    · cases h
    · split at h
      · cases h
      · split at h
        · cases h
        · exact (Except.error.inj h).symm

theorem convertValueLiteral_panics {value : ShellValueLiteral}
    (h : v.convertValueLiteral value = .error e) : e = .panic := by
  cases value with
  | scalar s =>
    rw [convertValueLiteral, map_eq_error_iff] at h
    exact convertValueStr_panics h
  | array literals =>
    rw [convertValueLiteral, map_eq_error_iff] at h
    obtain ⟨l, -, hl⟩ := exists_of_mapM_error h
    rw [map_eq_error_iff] at hl
    exact convertValueStr_panics hl

def InRange (index : List Char) (len : Nat) : Prop := -(len : Int) ≤ (parseI64 index).getD 0

omit [Casing] in
theorem getKey_error_iff (values : ExtTreeMap Nat (List Char)) (index : List Char) :
    (∃ e, getKeyForIndexedArray values index = .error e) ↔ ¬ InRange index values.size := by
  unfold getKeyForIndexedArray InRange
  dsimp only
  split_ifs with hneg hrange
  · exact iff_of_true ⟨_, rfl⟩ (by omega)
  · exact iff_of_false (fun ⟨_, h⟩ => nomatch h) (by omega)
  · exact iff_of_false (fun ⟨_, h⟩ => nomatch h) (by omega)

/-- When a failure of `assign_at_index` leaves the variable as it was: the variable is an array
already, or the index is in range for the one it is made. -/
def KeepsAtIndex (v : ShellVariable) (index value : List Char) : Prop :=
  match v.value with
  | .unset .associativeArray => True
  | .unset _ => v.readonly = false → (∃ s, v.convertValueStr value = .ok s) → InRange index 0
  | .string _ => (∃ s, v.convertValueStr value = .ok s) → InRange index 1
  | _ => True

/-- When a failure of `assign` leaves the variable as it was: nothing is appended to an
associative array before its literal is found to be misaligned, but what is there already. -/
def KeepsWhole (v : ShellVariable) (value : ShellValueLiteral) (append : Bool) : Prop :=
  append = true → v.readonly = false →
    ∀ literals, v.convertValueLiteral value = .ok (.array literals) →
      misaligned none literals = true →
      match v.value with
      | .unset .associativeArray => False
      | .associativeArray existing =>
        ∀ key s, lastValue (stored none literals) key = some s → existing[key]? = some s
      | _ => True

theorem storeAtIndex_of_error {index value : List Char} {append : Bool}
    (h : (v.storeAtIndex index value append).1 = .error e) :
    (v.storeAtIndex index value append).2 = v := by
  unfold storeAtIndex at h ⊢
  cases hs : v.convertValueStr value with
  | error e' => rfl
  | ok s =>
    rw [hs] at h
    dsimp only at h ⊢
    cases hv : v.value with
    | indexedArray arr =>
      rw [hv] at h
      dsimp only at h ⊢
      cases hkey : getKeyForIndexedArray arr index with
      | error e' => rfl
      | ok key =>
        rw [hkey] at h
        cases h
    | associativeArray arr =>
      rw [hv] at h
      cases h
    | unset ty => rfl
    | string s => rfl
    | dynamic accessors => rfl

theorem keeps_storeAtIndex_iff (h : w ≠ v) (index value : List Char)
    (append : Bool) : Keeps v (w.storeAtIndex index value append) ↔
      ¬ Fails (w.storeAtIndex index value append) := by
  constructor
  · rintro hkeeps ⟨e, he⟩
    exact h ((storeAtIndex_of_error he).symm.trans (hkeeps e he))
  · exact keeps_of_not_fails

theorem fails_storeAtIndex_iff {arr : ExtTreeMap Nat (List Char)}
    (hv : v.value = .indexedArray arr) (index value : List Char) (append : Bool) :
    Fails (v.storeAtIndex index value append) ↔
      (∃ s, v.convertValueStr value = .ok s) ∧ ¬ InRange index arr.size := by
  rw [← getKey_error_iff]
  unfold storeAtIndex
  cases hs : v.convertValueStr value with
  | error e' =>
    rw [convertValueStr_panics hs]
    exact iff_of_false not_fails_panic (fun ⟨⟨_, h⟩, _⟩ => nomatch h)
  | ok s =>
    dsimp only
    rw [hv]
    dsimp only
    cases hkey : getKeyForIndexedArray arr index with
    | error e' =>
      have herror : ∃ e, e' = Fault.error e := by
        unfold getKeyForIndexedArray at hkey
        dsimp only at hkey
        split_ifs at hkey
        · cases hkey
          exact ⟨_, rfl⟩
      obtain ⟨e, rfl⟩ := herror
      exact iff_of_true ⟨e, rfl⟩ ⟨⟨s, rfl⟩, _, rfl⟩
    | ok key => exact iff_of_false not_fails_ok (fun ⟨_, _, h⟩ => nomatch h)

theorem storeAtIndex_associative {arr : ExtTreeMap (List Char) (List Char)}
    (hv : v.value = .associativeArray arr) (index value : List Char) (append : Bool) :
    ¬ Fails (v.storeAtIndex index value append) := by
  unfold storeAtIndex
  cases hs : v.convertValueStr value with
  | error e =>
    rw [convertValueStr_panics hs]
    exact not_fails_panic
  | ok s =>
    rw [hv]
    exact not_fails_ok

omit [Casing] in
theorem assignEmptyArray_of_unset (hro : v.readonly = false)
    {ty : ShellValueUnsetType} (hv : v.value = .unset ty) :
    v.assignEmptyArray = (.ok (), v.setValue
      (if ty = .associativeArray then .associativeArray ∅ else .indexedArray ∅)) := by
  unfold assignEmptyArray replaceByArray
  rw [if_neg (by rw [hro]; exact Bool.false_ne_true), hv]
  cases ty <;> rfl

theorem assignAtIndex_keeps_iff (v : ShellVariable) (index value : List Char) (append : Bool) :
    Keeps v (v.assignAtIndex index value append) ↔ v.KeepsAtIndex index value := by
  have hsame : ∀ {e}, (v.storeAtIndex index value append).1 = .error (.error e) →
      (v.storeAtIndex index value append).2 = v := storeAtIndex_of_error
  unfold assignAtIndex KeepsAtIndex
  cases hv : v.value with
  | unset ty =>
    cases hro : v.readonly with
    | true =>
      dsimp only
      rw [assignEmptyArray_of_readonly hro]
      refine iff_of_true (fun _ _ => rfl) ?_
      cases ty with
      | associativeArray => trivial
      | untyped => exact nofun
      | indexedArray => exact nofun
    | false =>
      dsimp only
      rw [assignEmptyArray_of_unset hro hv]
      dsimp only
      have hne : ∀ value, (∀ ty, value ≠ .unset ty) → v.setValue value ≠ v := by
        intro value hvalue h
        exact hvalue ty (((setValue_eq_self_iff v value).1 h).trans hv)
      have hindexed := keeps_storeAtIndex_iff (hne (.indexedArray ∅) nofun) index value append
      rw [fails_storeAtIndex_iff rfl] at hindexed
      cases ty with
      | associativeArray =>
        refine iff_of_true ?_ trivial
        exact (keeps_storeAtIndex_iff (hne (.associativeArray ∅) nofun) index value append).2
          (storeAtIndex_associative rfl index value append)
      | untyped =>
        refine hindexed.trans (not_and_not_right.trans ?_)
        exact ⟨fun h _ => h, fun h => h rfl⟩
      | indexedArray =>
        refine hindexed.trans (not_and_not_right.trans ?_)
        exact ⟨fun h _ => h, fun h => h rfl⟩
  | string s =>
    have hconvert : v.convertToIndexedArray = (.ok (), v.setValue (.indexedArray
        ((∅ : ExtTreeMap Nat (List Char)).insert 0 s))) := by
      unfold convertToIndexedArray
      rw [hv]
      rfl
    have hne : v.setValue (.indexedArray ((∅ : ExtTreeMap Nat (List Char)).insert 0 s)) ≠ v := by
      intro h
      cases ((setValue_eq_self_iff v _).1 h).trans hv
    dsimp only
    rw [hconvert]
    dsimp only
    rw [keeps_storeAtIndex_iff hne, fails_storeAtIndex_iff rfl, not_and_not_right,
      ExtTreeMap.size_insert]
    rfl
  | indexedArray arr => exact iff_of_true (fun e he => hsame he) trivial
  | associativeArray arr => exact iff_of_true (fun e he => hsame he) trivial
  | dynamic accessors => exact iff_of_true (fun e he => hsame he) trivial

theorem storeAtIndex_zero
    (hv : (∃ arr, v.value = .indexedArray arr) ∨ ∃ arr, v.value = .associativeArray arr)
    (s : List Char) (append : Bool) :
    ¬ Fails (v.storeAtIndex ['0'] s append) := by
  rcases hv with ⟨arr, hv⟩ | ⟨arr, hv⟩
  · rw [fails_storeAtIndex_iff hv]
    rintro ⟨-, hrange⟩
    have hzero : (parseI64 ['0']).getD 0 = 0 := by decide
    exact hrange (by rw [InRange, hzero]; omega)
  · exact storeAtIndex_associative hv ['0'] s append

theorem assignAtIndex_zero (hro : v.readonly = false)
    (hv : ∀ accessors, v.value ≠ .dynamic accessors) (s : List Char) (append : Bool) :
    ¬ Fails (v.assignAtIndex ['0'] s append) := by
  unfold assignAtIndex
  cases hvalue : v.value with
  | unset ty =>
    dsimp only
    rw [assignEmptyArray_of_unset hro hvalue]
    dsimp only
    refine storeAtIndex_zero ?_ s append
    cases ty with
    | associativeArray => exact .inr ⟨_, rfl⟩
    | untyped => exact .inl ⟨_, rfl⟩
    | indexedArray => exact .inl ⟨_, rfl⟩
  | string base =>
    unfold convertToIndexedArray
    dsimp only
    rw [hvalue]
    exact storeAtIndex_zero (.inl ⟨_, rfl⟩) s append
  | indexedArray arr => exact storeAtIndex_zero (.inl ⟨arr, hvalue⟩) s append
  | associativeArray arr => exact storeAtIndex_zero (.inr ⟨arr, hvalue⟩) s append
  | dynamic accessors => exact absurd hvalue (hv accessors)

theorem replaceBy_scalar (hro : v.readonly = false) (s : List Char) :
    ¬ Fails (v.replaceBy (.scalar s)) := by
  unfold replaceBy
  dsimp only
  split
  · next h => exact assignAtIndex_zero hro (by rw [h]; exact nofun) s false
  · next h => exact assignAtIndex_zero hro (by rw [h]; exact nofun) s false
  · next h => exact assignAtIndex_zero hro (by rw [h]; exact nofun) s false
  · next h => exact assignAtIndex_zero hro (by rw [h]; exact nofun) s false
  · exact not_fails_ok
  · exact not_fails_ok
  · exact not_fails_ok

theorem appendTo_scalar (hro : v.readonly = false) (s : List Char) :
    ¬ Fails (v.appendTo (.scalar s)) := by
  unfold appendTo
  cases hv : v.value with
  | unset ty => exact not_fails_panic
  | dynamic accessors => exact not_fails_ok
  | indexedArray arr => exact assignAtIndex_zero hro (by rw [hv]; exact nofun) s true
  | associativeArray arr => exact assignAtIndex_zero hro (by rw [hv]; exact nofun) s true
  | string base =>
    dsimp only
    split_ifs with hint
    · exact not_fails_ok
    · split
      · exact not_fails_ok
      · next e h =>
        have hpanic : e = .panic :=
          convertValueStr_panics (v := { v with treatAsInteger := false }) h
        rw [hpanic]
        exact not_fails_panic

omit [Casing] in
theorem replaceByArray_keeps (v : ShellVariable)
    (literals : List (Option (List Char) × List Char)) : Keeps v (v.replaceByArray literals) := by
  unfold replaceByArray
  split
  · split
    · exact keeps_of_ok
    · exact keeps_of_eq rfl
  · split
    · exact keeps_of_ok
    · exact keeps_of_eq rfl
  · exact keeps_of_ok

def appended (v : ShellVariable) (value : ShellValueLiteral) : Attempt ShellVariable Unit :=
  match v.prepareAppend value with
  | (.error e, v) => (.error e, v)
  | (.ok _, v) => v.appendTo value

theorem appended_scalar (hro : v.readonly = false) (s : List Char) :
    ¬ Fails (v.appended (.scalar s)) := by
  unfold appended prepareAppend
  cases hv : v.value with
  | unset ty =>
    cases ty with
    | untyped =>
      dsimp only
      cases ht : v.convertValueStr [] with
      | error e =>
        rw [convertValueStr_panics ht]
        exact not_fails_panic
      | ok t =>
        have hreplaced : v.replaceBy (.scalar t) = (.ok (), v.setValue (.string t)) := by
          unfold replaceBy
          dsimp only
          rw [hv]
        dsimp only
        rw [hreplaced]
        exact appendTo_scalar (v := v.setValue (.string t)) hro s
    | associativeArray =>
      dsimp only
      rw [assignEmptyArray_of_unset hro hv]
      exact appendTo_scalar (v := v.setValue (.associativeArray ∅)) hro s
    | indexedArray =>
      dsimp only
      rw [assignEmptyArray_of_unset hro hv]
      exact appendTo_scalar (v := v.setValue (.indexedArray ∅)) hro s
  | string base => exact appendTo_scalar hro s
  | indexedArray arr => exact appendTo_scalar hro s
  | associativeArray arr => exact appendTo_scalar hro s
  | dynamic accessors => exact appendTo_scalar hro s

theorem appendTo_associative {arr : ExtTreeMap (List Char) (List Char)}
    (hv : v.value = .associativeArray arr) (literals : List (Option (List Char) × List Char))
    (w : ShellVariable) :
    Keeps w (v.appendTo (.array literals)) ↔ (misaligned none literals = true →
      v.setValue (.associativeArray (insertPairs arr (stored none literals))) = w) := by
  unfold appendTo ShellValue.updateAssociativeArrayFromLiterals
  rw [hv]
  dsimp only
  rw [updateAssociativeLoop_eq]
  cases misaligned none literals with
  | true => exact ⟨fun h _ => h _ rfl, fun h _ _ => h rfl⟩
  | false => exact iff_of_true keeps_of_ok nofun

theorem appended_array (hro : v.readonly = false)
    (literals : List (Option (List Char) × List Char)) :
    Keeps v (v.appended (.array literals)) ↔ (misaligned none literals = true →
      match v.value with
      | .unset .associativeArray => False
      | .associativeArray existing =>
        ∀ key s, lastValue (stored none literals) key = some s → existing[key]? = some s
      | _ => True) := by
  unfold appended prepareAppend
  cases hv : v.value with
  | unset ty =>
    rw [assignEmptyArray_of_unset hro hv]
    cases ty with
    | associativeArray =>
      refine (appendTo_associative rfl literals v).trans ?_
      refine imp_congr_right fun _ => iff_of_false (fun h => ?_) id
      cases ((setValue_eq_self_iff v _).1 h).trans hv
    | untyped => exact iff_of_true keeps_of_ok fun _ => trivial
    | indexedArray => exact iff_of_true keeps_of_ok fun _ => trivial
  | string base =>
    unfold convertToIndexedArray
    dsimp only
    rw [hv]
    exact iff_of_true keeps_of_ok fun _ => trivial
  | indexedArray arr =>
    dsimp only
    unfold appendTo
    rw [hv]
    exact iff_of_true keeps_of_ok fun _ => trivial
  | associativeArray arr =>
    refine (appendTo_associative hv literals v).trans ?_
    rw [setValue_eq_self_iff, hv, ShellValue.associativeArray.injEq, insertPairs_eq_self_iff]
  | dynamic accessors =>
    dsimp only
    unfold appendTo
    rw [hv]
    exact iff_of_true keeps_of_ok fun _ => trivial

theorem assign_keeps_iff (v : ShellVariable) (value : ShellValueLiteral) (append : Bool) :
    Keeps v (v.assign value append) ↔ v.KeepsWhole value append := by
  unfold assign KeepsWhole
  cases hro : v.readonly with
  | true => exact iff_of_true (fun _ _ => rfl) fun _ => nofun
  | false =>
    rw [if_neg Bool.false_ne_true]
    cases hvalue : v.convertValueLiteral value with
    | error e =>
      rw [convertValueLiteral_panics hvalue]
      exact iff_of_true keeps_of_panic fun _ _ _ => nofun
    | ok converted =>
      cases append with
      | false =>
        refine iff_of_true ?_ nofun
        cases converted with
        | scalar s => exact keeps_of_not_fails (replaceBy_scalar hro s)
        | array literals => exact v.replaceByArray_keeps literals
      | true =>
        cases converted with
        | scalar s =>
          exact iff_of_true (keeps_of_not_fails (appended_scalar hro s)) fun _ _ _ => nofun
        | array literals =>
          refine (appended_array hro literals).trans ⟨?_, fun h => h rfl rfl literals rfl⟩
          rintro h - - _ ⟨⟩
          exact h

end ShellVariable

section

variable [Casing]

/-- **Failed assignments.** A failed `assign` or `assign_at_index` leaves the variable as it was,
exactly if it does not fail at an index out of range for the array that it has just made of the
variable, nor at a misaligned literal of which it has appended what was not there. -/
theorem failed_iff (v : ShellVariable) :
    (∀ value append, Keeps v (v.assign value append) ↔ v.KeepsWhole value append) ∧
      ∀ index value append,
        Keeps v (v.assignAtIndex index value append) ↔ v.KeepsAtIndex index value :=
  ⟨v.assign_keeps_iff, v.assignAtIndex_keeps_iff⟩

end

/-- `x=a; x[-2]=b` fails, and makes `x` an array. -/
theorem not_keeps_negative : ¬ Keeps (ShellVariable.new (.string ['a']))
      (@ShellVariable.assignAtIndex asciiCasing (ShellVariable.new (.string ['a']))
        ['-', '2'] ['b'] false) := by
  intro h
  cases congrArg ShellVariable.value (h _ rfl)

end Seahaven.Shell
