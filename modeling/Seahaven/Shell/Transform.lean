import Mathlib
import Seahaven.Shell.Decimal
import Seahaven.Shell.Failed

/-!
# Update transforms

A variable may ask that what it is assigned be read as an integer, or be put in lower case, in upper
case, or in lower case but for a capital first letter. The last of these replaces one byte of the
text, which panics where the first letter is longer.

1. `transformed`: what a transform makes of a text.
2. `transformed_again`: a text that was transformed stays what it is, if it is ASCII.
3. `transforms_iff`: the texts that a variable can be assigned.
-/

namespace Seahaven.Shell

open Std

def IsAscii (s : List Char) : Prop := ∀ c ∈ s, c.utf8Size = 1

/-- What is documented of the case mappings on ASCII characters. -/
class CasesAscii [Casing] : Prop where
  toLowercase_ascii : ∀ s, IsAscii s → Casing.toLowercase s = s.map Char.toLower
  toUppercase_ascii : ∀ s, IsAscii s → Casing.toUppercase s = s.map Char.toUpper
  toLowercase_head : ∀ (c : Char) (s : List Char), c.utf8Size = 1 →
    (Casing.toLowercase (c :: s)).head? = some c.toLower

/-! ## ASCII -/

theorem utf8Size_eq_one_iff (c : Char) : c.utf8Size = 1 ↔ c.toNat < 128 := by
  rw [Char.utf8Size_eq_one_iff, UInt32.le_iff_toNat_le, Char.toNat]
  exact Nat.lt_succ_iff.symm

theorem toNat_ofNat_of_lt {n : Nat} (h : n < 128) : (Char.ofNat n).toNat = n := by
  rw [Char.toNat_ofNat, if_pos (.inl (h.trans (by decide)))]

theorem utf8Size_toLower {c : Char} (h : c.utf8Size = 1) : c.toLower.utf8Size = 1 := by
  by_cases hc : c.isUpper
  · have hrange : c.toNat ≤ 'Z'.toNat := by
      simp only [Char.isUpper, Bool.and_eq_true, decide_eq_true_eq] at hc
      exact hc.2
    have hlt : c.toNat + 32 < 128 := Nat.lt_of_le_of_lt (Nat.add_le_add_right hrange 32) (by decide)
    rw [utf8Size_eq_one_iff, Char.toLower_eq_of_isUpper hc, toNat_ofNat_of_lt hlt]
    exact hlt
  · rwa [Char.toLower_eq_of_not_isUpper hc]

theorem utf8Size_toUpper {c : Char} (h : c.utf8Size = 1) : c.toUpper.utf8Size = 1 := by
  by_cases hc : c.isLower
  · rw [utf8Size_eq_one_iff] at h ⊢
    have hlt : c.toNat - 32 < 128 := by omega
    rw [Char.toUpper_eq_of_isLower hc, toNat_ofNat_of_lt hlt]
    exact hlt
  · rwa [Char.toUpper_eq_of_not_isLower hc]

variable {s : List Char}

theorem isAscii_map {f : Char → Char} (hf : ∀ {c : Char}, c.utf8Size = 1 → (f c).utf8Size = 1)
    (h : IsAscii s) : IsAscii (s.map f) := by
  intro c hc
  obtain ⟨d, hd, rfl⟩ := List.mem_map.1 hc
  exact hf (h d hd)

/-! ## Transforms -/

section

variable [Casing]

/-- What a transform makes of a text. -/
def transformed (treatAsInt : Bool) (transform : ShellVariableUpdateTransform)
    (s : List Char) : List Char :=
  if treatAsInt then i64ToString ((parseI64 s).getD 0)
  else match transform with
    | .none => s
    | .lowercase => Casing.toLowercase s
    | .uppercase => Casing.toUppercase s
    | .capitalize =>
      match Casing.toLowercase s with
      | [] => []
      | c :: cs => Casing.toUppercase [c] ++ cs

/-- The text is not to be capitalized, or its first character in lower case is of one byte. -/
def Splices (v : ShellVariable) (s : List Char) : Prop :=
  v.treatAsInteger = true ∨ v.transformOnUpdate ≠ .capitalize ∨
    ∀ c ∈ (Casing.toLowercase s).head?, c.utf8Size = 1

theorem convertValueStr_iff (v : ShellVariable) (s : List Char) :
    v.convertValueStr s = .ok (transformed v.treatAsInteger v.transformOnUpdate s) ↔
      Splices v s := by
  unfold ShellVariable.convertValueStr ShellVariable.applyValueTransforms transformed Splices
  cases v.treatAsInteger with
  | true => exact iff_of_true rfl (.inl rfl)
  | false =>
    cases v.transformOnUpdate with
    | none => exact iff_of_true rfl (.inr (.inl nofun))
    | lowercase => exact iff_of_true rfl (.inr (.inl nofun))
    | uppercase => exact iff_of_true rfl (.inr (.inl nofun))
    | capitalize =>
      cases Casing.toLowercase s with
      | nil => exact iff_of_true rfl (.inr (.inr nofun))
      | cons c cs =>
        simp

variable [CasesAscii]

omit [Casing] [CasesAscii] in
theorem isAscii_i64ToString (n : Int) : IsAscii (i64ToString n) := by
  have hdigits : ∀ m, IsAscii (Nat.toDigits 10 m) := by
    intro m c hc
    have hdigit := Nat.isDigit_of_mem_toDigits (by decide) (by decide) hc
    have hrange : c.toNat ≤ '9'.toNat := by
      simp only [Char.isDigit, Bool.and_eq_true, decide_eq_true_eq] at hdigit
      exact hdigit.2
    rw [utf8Size_eq_one_iff]
    exact Nat.lt_of_le_of_lt hrange (by decide)
  rcases Int.eq_nat_or_neg n with ⟨m, rfl | rfl⟩
  · rw [i64ToString_ofNat]
    exact hdigits m
  · by_cases hm : m = 0
    · subst hm
      exact hdigits 0
    · rw [i64ToString_neg hm]
      intro c hc
      rcases List.mem_cons.1 hc with rfl | hc
      · rfl
      · exact hdigits m c hc

theorem isAscii_transformed (treatAsInt : Bool) (transform : ShellVariableUpdateTransform)
    (h : IsAscii s) : IsAscii (transformed treatAsInt transform s) := by
  have hlower : IsAscii (Casing.toLowercase s) := by
    rw [CasesAscii.toLowercase_ascii s h]
    exact isAscii_map utf8Size_toLower h
  have hupper : ∀ {s}, IsAscii s → IsAscii (Casing.toUppercase s) := by
    intro s h
    rw [CasesAscii.toUppercase_ascii s h]
    exact isAscii_map utf8Size_toUpper h
  unfold transformed
  split_ifs with hint
  · exact isAscii_i64ToString _
  · cases transform with
    | none => exact h
    | lowercase => exact hlower
    | uppercase => exact hupper h
    | capitalize =>
      dsimp only
      cases hs : Casing.toLowercase s with
      | nil => exact nofun
      | cons c cs =>
        rw [hs] at hlower
        have hc : IsAscii [c] := fun d hd => hlower d (List.mem_singleton.1 hd ▸ List.mem_cons_self)
        intro d hd
        rcases List.mem_append.1 hd with hd | hd
        · exact hupper hc d hd
        · exact hlower d (List.mem_cons_of_mem c hd)

def capitalized : List Char → List Char
  | [] => []
  | c :: cs => c.toUpper :: cs.map Char.toLower

theorem transformed_capitalize (h : IsAscii s) :
    transformed false .capitalize s = capitalized s := by
  unfold transformed
  rw [if_neg Bool.false_ne_true]
  dsimp only
  rw [CasesAscii.toLowercase_ascii s h]
  cases s with
  | nil => rfl
  | cons c cs =>
    have hc : IsAscii [c.toLower] := by
      intro d hd
      rw [List.mem_singleton.1 hd]
      exact utf8Size_toLower (h c List.mem_cons_self)
    rw [List.map_cons]
    dsimp only
    rw [CasesAscii.toUppercase_ascii _ hc, List.map_singleton, Char.toUpper_toLower_eq_toUpper]
    rfl

theorem transformed_again (treatAsInt : Bool) (transform : ShellVariableUpdateTransform)
    (h : IsAscii s) :
    transformed treatAsInt transform (transformed treatAsInt transform s) =
      transformed treatAsInt transform s := by
  have hascii := isAscii_transformed treatAsInt transform h
  cases treatAsInt with
  | true =>
    change i64ToString ((parseI64 (i64ToString ((parseI64 s).getD 0))).getD 0) =
      i64ToString ((parseI64 s).getD 0)
    rw [parseI64_i64ToString (isI64_parseI64 s), Option.getD_some]
  | false =>
    cases transform with
    | none => rfl
    | lowercase =>
      change IsAscii (Casing.toLowercase s) at hascii
      change Casing.toLowercase (Casing.toLowercase s) = Casing.toLowercase s
      rw [CasesAscii.toLowercase_ascii _ hascii, CasesAscii.toLowercase_ascii s h, List.map_map]
      refine List.map_congr_left fun c _ => ?_
      exact Char.toLower_toLower_eq_toLower c
    | uppercase =>
      change IsAscii (Casing.toUppercase s) at hascii
      change Casing.toUppercase (Casing.toUppercase s) = Casing.toUppercase s
      rw [CasesAscii.toUppercase_ascii _ hascii, CasesAscii.toUppercase_ascii s h, List.map_map]
      refine List.map_congr_left fun c _ => ?_
      exact Char.toUpper_toUpper_eq_toUpper c
    | capitalize =>
      rw [transformed_capitalize hascii, transformed_capitalize h]
      cases s with
      | nil => rfl
      | cons c cs =>
        rw [capitalized, capitalized, Char.toUpper_toUpper_eq_toUpper, List.map_map]
        refine congrArg _ (List.map_congr_left fun c _ => ?_)
        exact Char.toLower_toLower_eq_toLower c

variable {v : ShellVariable}

theorem splices_transformed (h : Splices v s) :
    Splices v (transformed v.treatAsInteger v.transformOnUpdate s) := by
  by_cases hint : v.treatAsInteger = true
  · exact .inl hint
  by_cases htransform : v.transformOnUpdate = .capitalize
  · refine .inr (.inr ?_)
    have hhead : ∀ c ∈ (Casing.toLowercase s).head?, c.utf8Size = 1 :=
      (h.resolve_left hint).resolve_left fun hne => hne htransform
    unfold transformed
    rw [if_neg hint, htransform]
    dsimp only
    cases hs : Casing.toLowercase s with
    | nil =>
      rw [CasesAscii.toLowercase_ascii [] nofun]
      exact nofun
    | cons c cs =>
      have hc : c.utf8Size = 1 := hhead c (by rw [hs]; rfl)
      have hupper : Casing.toUppercase [c] = [c.toUpper] :=
        CasesAscii.toUppercase_ascii [c] fun d hd => List.mem_singleton.1 hd ▸ hc
      dsimp only
      rw [hupper, List.singleton_append, CasesAscii.toLowercase_head _ _ (utf8Size_toUpper hc)]
      rintro d ⟨⟩
      exact utf8Size_toLower (utf8Size_toUpper hc)
  · exact .inr (.inl htransform)

/-! ## Assignments -/

variable {t : List Char}

omit [CasesAscii] in
theorem assign_scalar (hro : v.readonly = false)
    (ht : v.convertValueStr s = .ok t) : v.assign (.scalar s) false = v.replaceBy (.scalar t) := by
  unfold ShellVariable.assign
  rw [hro, if_neg Bool.false_ne_true, ShellVariable.convertValueLiteral, ht]
  rfl

/-- The variable holds a text, as its value or at element `0`. -/
def HoldsText (v : ShellVariable) (t : List Char) : Prop :=
  match v.value with
  | .string s => s = t
  | .indexedArray arr => arr[0]? = some t
  | .associativeArray arr => arr[['0']]? = some t
  | .unset _ => False
  | .dynamic _ => True

omit [CasesAscii] in
theorem storeAtIndex_holds (ht : v.convertValueStr s = .ok t)
    (hv : (∃ arr, v.value = .indexedArray arr) ∨ ∃ arr, v.value = .associativeArray arr) :
    ∃ value, v.storeAtIndex ['0'] s false = (.ok (), v.setValue value) ∧
      HoldsText (v.setValue value) t := by
  unfold ShellVariable.storeAtIndex
  rw [ht]
  dsimp only
  rcases hv with ⟨arr, hv⟩ | ⟨arr, hv⟩
  · rw [hv]
    exact ⟨.indexedArray (arr.insert 0 t), rfl, ExtTreeMap.getElem?_insert_self⟩
  · rw [hv]
    exact ⟨.associativeArray (arr.insert ['0'] t), rfl, ExtTreeMap.getElem?_insert_self⟩

omit [CasesAscii] in
theorem replaceBy_holds (hro : v.readonly = false)
    (ht : v.convertValueStr s = .ok t) :
    ∃ value, v.replaceBy (.scalar s) = (.ok (), v.setValue value) ∧
      (HoldsText (v.setValue value) s ∨ HoldsText (v.setValue value) t) := by
  unfold ShellVariable.replaceBy ShellVariable.assignAtIndex
  cases hv : v.value with
  | unset ty =>
    cases ty with
    | untyped => exact ⟨.string s, rfl, .inl rfl⟩
    | associativeArray =>
      dsimp only
      rw [ShellVariable.assignEmptyArray_of_unset hro hv]
      obtain ⟨value, hstore, hholds⟩ :=
        storeAtIndex_holds (v := v.setValue (.associativeArray ∅)) ht (.inr ⟨_, rfl⟩)
      exact ⟨value, hstore, .inr hholds⟩
    | indexedArray =>
      dsimp only
      rw [ShellVariable.assignEmptyArray_of_unset hro hv]
      obtain ⟨value, hstore, hholds⟩ :=
        storeAtIndex_holds (v := v.setValue (.indexedArray ∅)) ht (.inl ⟨_, rfl⟩)
      exact ⟨value, hstore, .inr hholds⟩
  | string base => exact ⟨.string s, rfl, .inl rfl⟩
  | indexedArray arr =>
    obtain ⟨value, hstore, hholds⟩ := storeAtIndex_holds ht (.inl ⟨arr, hv⟩)
    exact ⟨value, hstore, .inr hholds⟩
  | associativeArray arr =>
    obtain ⟨value, hstore, hholds⟩ := storeAtIndex_holds ht (.inr ⟨arr, hv⟩)
    exact ⟨value, hstore, .inr hholds⟩
  | dynamic accessors =>
    have hset := (ShellVariable.setValue_eq_self_iff v _).2 hv.symm
    exact ⟨.dynamic accessors, by rw [hset], .inl trivial⟩

omit [CasesAscii] in
theorem assign_held (hro : v.readonly = false)
    (ht : v.convertValueStr t = .ok t) (h : HoldsText v t) :
    v.assign (.scalar t) false = (.ok (), v) := by
  rw [assign_scalar hro ht]
  unfold ShellVariable.replaceBy ShellVariable.assignAtIndex ShellVariable.storeAtIndex
  unfold HoldsText at h
  cases hv : v.value with
  | unset ty =>
    rw [hv] at h
    cases h
  | string base =>
    rw [hv] at h
    cases h
    dsimp only
    rw [(ShellVariable.setValue_eq_self_iff v _).2 hv.symm]
  | indexedArray arr =>
    rw [hv] at h
    dsimp only at h ⊢
    rw [ht]
    have hinsert : arr.insert 0 t = arr := (insert_eq_self_iff arr 0 t).2 h
    have hself : v.setValue (.indexedArray (arr.insert 0 t)) = v := by
      rw [hinsert]
      exact (ShellVariable.setValue_eq_self_iff v _).2 hv.symm
    exact congrArg _ hself
  | associativeArray arr =>
    rw [hv] at h
    dsimp only at h ⊢
    rw [ht]
    have hinsert : arr.insert ['0'] t = arr := (insert_eq_self_iff arr ['0'] t).2 h
    have hself : v.setValue (.associativeArray (arr.insert ['0'] t)) = v := by
      rw [hinsert]
      exact (ShellVariable.setValue_eq_self_iff v _).2 hv.symm
    exact congrArg _ hself
  | dynamic accessors => rfl

omit [Casing] [CasesAscii] in
theorem toStr_of_holdsText (h : HoldsText v t)
    (hv : ∀ accessors, v.value ≠ .dynamic accessors) :
    v.value.toStrWithoutDynamicSupport = t := by
  unfold HoldsText at h
  cases hvalue : v.value with
  | unset ty =>
    rw [hvalue] at h
    cases h
  | string s =>
    rw [hvalue] at h
    exact h
  | indexedArray arr =>
    rw [hvalue] at h
    exact congrArg (·.getD []) h
  | associativeArray arr =>
    rw [hvalue] at h
    exact congrArg (·.getD []) h
  | dynamic accessors => exact absurd hvalue (hv accessors)

/-- What an update of a variable promises for a text: it is transformed as the attributes say, the
assignment succeeds, and what it stores can be assigned again, if the text is ASCII. -/
structure Transforms (v : ShellVariable) (s : List Char) : Prop where
  converts : v.convertValueStr s = .ok (transformed v.treatAsInteger v.transformOnUpdate s)
  assigns : v.readonly = false → ∃ w, v.assign (.scalar s) false = (.ok (), w)
  again : IsAscii s → ∀ w, v.assign (.scalar s) false = (.ok (), w) →
    w.assign (.scalar w.value.toStrWithoutDynamicSupport) false = (.ok (), w)

/-- **Update transforms.** A text is transformed as the attributes of the variable say, and what is
stored can be assigned again, exactly if it is not to be capitalized, or its first character in
lower case is of one byte. -/
theorem transforms_iff (v : ShellVariable) (s : List Char) : Transforms v s ↔ Splices v s := by
  refine ⟨fun h => (convertValueStr_iff v s).1 h.converts, fun h => ?_⟩
  have hconverts := (convertValueStr_iff v s).2 h
  have hagain := (convertValueStr_iff v _).2 (splices_transformed h)
  refine ⟨hconverts, fun hro => ?_, fun hascii w hw => ?_⟩
  · obtain ⟨value, hreplace, -⟩ := replaceBy_holds hro hagain
    exact ⟨_, (assign_scalar hro hconverts).trans hreplace⟩
  · have hro : v.readonly = false := by
      cases hro : v.readonly with
      | false => rfl
      | true =>
        rw [ShellVariable.assign_of_readonly hro] at hw
        cases hw
    rw [transformed_again _ _ hascii] at hagain
    obtain ⟨value, hreplace, hholds⟩ := replaceBy_holds hro hagain
    rw [assign_scalar hro hconverts, hreplace] at hw
    cases hw
    have hholds : HoldsText (v.setValue value) _ := hholds.elim id id
    by_cases hdynamic : ∃ accessors, value = .dynamic accessors
    · obtain ⟨accessors, rfl⟩ := hdynamic
      have hempty : Splices v [] := by
        refine .inr (.inr ?_)
        rw [CasesAscii.toLowercase_ascii [] nofun]
        exact nofun
      exact assign_scalar (v := v.setValue (.dynamic accessors)) hro
        ((convertValueStr_iff v []).2 hempty)
    · rw [toStr_of_holdsText hholds fun accessors h => hdynamic ⟨accessors, h⟩]
      exact assign_held (v := v.setValue value) hro hagain hholds

end

theorem casesAscii_ascii : @CasesAscii asciiCasing :=
  @CasesAscii.mk asciiCasing (fun _ _ => rfl) (fun _ _ => rfl) fun _ _ _ => rfl

/-- `declare -c x; x=aB`. -/
theorem transforms_ascii : @Transforms asciiCasing
      { ShellVariable.new (.unset .untyped) with transformOnUpdate := .capitalize } ['a', 'B'] :=
  (@transforms_iff asciiCasing casesAscii_ascii _ _).2 (.inr (.inr (by rintro c ⟨⟩; rfl)))

/-- `declare -c x; x=é` panics: the first letter is of two bytes. -/
theorem not_transforms_accent : ¬ @Transforms asciiCasing
      { ShellVariable.new (.unset .untyped) with transformOnUpdate := .capitalize } ['é'] :=
  fun h => nomatch @Transforms.converts asciiCasing _ _ h

end Seahaven.Shell
