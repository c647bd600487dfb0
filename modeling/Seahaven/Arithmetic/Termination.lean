import Seahaven.Arithmetic.Operators

/-!
# Every evaluation ends

An evaluation ends for every expression and all variables, and not in a panic, also where the
variables refer to each other in a cycle.

1. `updates_calm`: a variable can be assigned the text of a number without a panic.
2. `Ends`, and `evaluate_ends`: what the evaluation promises.
-/

namespace Seahaven.Arithmetic

open Shell Fuel

/-! ## Updates -/

section

variable [Casing] [CasesAscii]

theorem splices_toText (v : ShellVariable) (n : Int64) : Splices v (toText n) := by
  have hascii : IsAscii (toText n) := isAscii_i64ToString n.toInt
  refine .inr (.inr fun c hc => ?_)
  rw [CasesAscii.toLowercase_ascii _ hascii] at hc
  obtain ⟨d, hd, rfl⟩ := List.mem_map.1 (List.mem_of_mem_head? hc)
  exact utf8Size_toLower (hascii d hd)

omit [Casing] [CasesAscii] in
theorem getKeyForIndexedArray_calm (values : Std.ExtTreeMap Nat (List Char)) (index : List Char) :
    getKeyForIndexedArray values index ≠ .error .panic := by
  unfold getKeyForIndexedArray
  dsimp only
  split_ifs <;> nofun

theorem storeAtIndex_calm (v : ShellVariable) (index : List Char) (n : Int64) :
    (v.storeAtIndex index (toText n) false).1 ≠ .error .panic := by
  unfold ShellVariable.storeAtIndex
  rw [(convertValueStr_iff v _).2 (splices_toText v n)]
  dsimp only
  cases v.value with
  | indexedArray arr =>
    have hkey := getKeyForIndexedArray_calm arr index
    dsimp only
    cases hcase : getKeyForIndexedArray arr index with
    | ok key => nofun
    | error e =>
      rw [hcase] at hkey
      rintro ⟨⟩
      exact hkey rfl
  | _ => nofun

theorem assignAtIndex_calm (v : ShellVariable) (index : List Char) (n : Int64) :
    (v.assignAtIndex index (toText n) false).1 ≠ .error .panic := by
  unfold ShellVariable.assignAtIndex
  cases hv : v.value with
  | unset ty =>
    dsimp only
    cases hro : v.readonly with
    | true =>
      rw [ShellVariable.assignEmptyArray_of_readonly hro]
      nofun
    | false =>
      rw [ShellVariable.assignEmptyArray_of_unset hro hv]
      exact storeAtIndex_calm _ index n
  | string base =>
    unfold ShellVariable.convertToIndexedArray
    rw [hv]
    exact storeAtIndex_calm _ index n
  | _ => exact storeAtIndex_calm v index n

theorem assign_calm (v : ShellVariable) (n : Int64) :
    (v.assign (.scalar (toText n)) false).1 ≠ .error .panic := by
  have hsplices := splices_toText v n
  cases hro : v.readonly with
  | true =>
    rw [ShellVariable.assign_of_readonly hro]
    nofun
  | false =>
    obtain ⟨value, hreplace, -⟩ :=
      replaceBy_holds hro ((convertValueStr_iff v _).2 (splices_transformed hsplices))
    rw [assign_scalar hro ((convertValueStr_iff v _).2 hsplices), hreplace]
    nofun

omit [Casing] [CasesAscii] in
theorem addNew_calm (env : ShellEnvironment) (name : List Char) (target : EnvironmentScope)
    {r : Attempt ShellVariable Unit} (h : r.1 ≠ .error .panic) :
    (env.addNew name target r).1 ≠ .error .panic := by
  rcases r with ⟨e | u, v⟩
  · exact fun he => h he
  · change (env.add name v target).1 ≠ _
    unfold ShellEnvironment.add
    dsimp only
    split <;> nofun

omit [Casing] [CasesAscii] in
theorem updated_calm {f : ShellEnvironment → Attempt ShellEnvironment Unit} {s : ArithShell}
    (h : (f s.env).1 ≠ .error .panic) : (updated f s).1 ≠ .error .panic := by
  unfold updated
  split
  · nofun
  · nofun
  · next env hf =>
    rw [hf] at h
    exact absurd rfl h

theorem updates_calm : UpdatesFine (· = .panic) where
  whole name value s e he := by
    rintro rfl
    refine updated_calm ?_ he
    unfold ShellEnvironment.updateOrAdd
    split
    · next i v _ =>
      have hassign := assign_calm v value
      change (ShellEnvironment.update _ _ _ v).1 ≠ _
      unfold ShellEnvironment.update
      split
      · next e w h =>
        rw [h] at hassign
        exact hassign
      · rintro ⟨⟩
    · refine addNew_calm _ _ _ ?_
      rw [ShellEnvironment.update, ShellEnvironment.assign_fresh]
      rintro ⟨⟩
  element name index value s e he := by
    rintro rfl
    refine updated_calm ?_ he
    unfold ShellEnvironment.updateOrAddArrayElement
    split
    · next i v _ =>
      have hassign := assignAtIndex_calm v (toText index) value
      change (ShellEnvironment.thenUpdate (v.assignAtIndex (toText index) (toText value) false)
        .skip).1 ≠ _
      unfold ShellEnvironment.thenUpdate
      split
      · next e w h =>
        rw [h] at hassign
        exact hassign
      · rintro ⟨⟩
    · refine addNew_calm _ _ _ ?_
      rw [ShellEnvironment.assign_fresh]
      rintro ⟨⟩

end

/-! ## The evaluation -/

/-- What the evaluation of arithmetic promises. -/
structure Ends [Casing] [Getters] : Prop where
  /-- The recursion goes down in the depth that is left and the size of the expression. -/
  wellFounded : WellFounded Below
  recursion : ∀ f g i, (∀ j, Below j i → f j = g j) → evalStep f i = evalStep g i
  /-- Every evaluation ends, and not in a panic. -/
  ends : ∀ i s, ∃ n, ∀ m, n ≤ m → evalFuel m i s = evaluate i s
  outOfFuel : ∀ i s, (evaluate i s).1 ≠ .error .outOfFuel
  panic : ∀ i s, (evaluate i s).1 ≠ .error .panic
  /-- What needs at most 1024 dereferences inside each other is evaluated to its value. -/
  value : ∀ e s v t, evaluate (e, 0) s = (.ok v, t) ↔ Yields maxVariableDerefDepth e s v t
  /-- What comes to a cycle of references exceeds the limit. -/
  cycle : ∀ e s p, Reaches e s p.1 p.2 → Relation.TransGen Next p p →
    ExceedsLimit (evaluate (e, 0)) s
  endless : ∀ (C : Set (ArithmeticTarget × ArithShell)), (∀ p ∈ C, ∃ q ∈ C, Next p q) →
    ∀ e s, ∀ p ∈ C, Reaches e s p.1 p.2 → ExceedsLimit (evaluate (e, 0)) s
  /-- The operators yield what they yield on the integers, modulo `2 ^ 64`. -/
  unary : ∀ op a d s, evaluate (.unaryOp op (.literal a), d) s =
    (.ok (Int64.ofInt (op.exact a.toInt)), s)
  binary : ∀ op a b d s, evaluate (.binaryOp op (.literal a) (.literal b), d) s =
    match op.exact a.toInt b.toInt with
    | some n => (.ok (Int64.ofInt n), s)
    | none => (.error (.error (if op = .power then .negativeExponent else .divideByZero)), s)

/-- **Termination.** Every evaluation ends. -/
theorem evaluate_ends [Casing] [CasesAscii] [Getters] : Ends where
  wellFounded := wellFounded_below
  recursion f g i h := evalStep_congr h
  ends i s := (settles_evaluate i s).eventually
  outOfFuel i s h := (settles_evaluate i s).good _ h rfl
  panic i s h :=
    (settles_run wellFounded_below (recurses_evalStep nofun updates_calm) i s).good _ h rfl
  value e s v t := evaluate_eq_ok_iff
  cycle e s p h hcycle := exceeds_of_cycle hcycle h
  endless C hC e s p hp h := exceeds_of_reaches h (exceeds_of_endless hC _ 0 p hp (Nat.le_refl _))
  unary op a d s := by
    rw [evaluate_unaryOp, evaluate_literal, ← unaryValue_ofInt]
    rfl
  binary op a b d s := by
    rw [evaluate_binaryOp_literal]
    cases h : op.exact a.toInt b.toInt with
    | some n =>
      rw [binaryValue_ofInt h]
      rfl
    | none =>
      rw [binaryValue_error h]
      rfl

@[reducible] def noGetters : Getters := ⟨fun _ _ => .unset .untyped, nofun⟩

/-- With the case mappings of ASCII. -/
theorem evaluate_ends_ascii : @Ends asciiCasing noGetters :=
  @evaluate_ends asciiCasing casesAscii_ascii noGetters

end Seahaven.Arithmetic
