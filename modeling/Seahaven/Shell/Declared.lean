import Seahaven.Shell.Declaration

/-!
# Declared assignments

An assignment that is an argument of `declare` is made by `assign`, from a literal: an element is
assigned by appending an array of one member, whose key is the text of the subscript, and `+=` is
passed over. So a declaration stores what the assignment stores alone where appending has nothing to
append to, and where the subscript is its own value.

1. `declareAssignment`: `declare` with an assignment and no options, at global scope.
2. `assignAtIndex_alike_iff`, `assign_alike_iff`: the two paths on one variable.
3. `assignsAlike_iff`: the two paths on an environment.
-/

namespace Seahaven.Shell

open Std

/-! ## The two paths -/

namespace WordExpander

variable {W : Type} (x : WordExpander W)

/-- `expand_assignment`: the value first, then the subscript, which is not evaluated. The name of an
assignment stands for itself. -/
def expandAssignment (a : Assignment W) : Op ShellEnvironment Fault DeclaredAssignment := do
  let value ← x.expandValue a.value
  let index ← x.expandIndex a.index
  pure ⟨a.name, index, value, a.append⟩

/-- The words of an assignment that stands alone: the subscript first, then the value. -/
def expandWords (a : Assignment W) :
    Op ShellEnvironment Fault (Option (List Char) × ShellValueLiteral) := do
  let index ← x.expandIndex a.index
  let value ← x.expandValue a.value
  pure (index, value)

/-- It does not matter in which order the words of a subscript and of the value are expanded, and
the evaluation of the subscript changes nothing. -/
structure Orderly (a : Assignment W) (env : ShellEnvironment) : Prop where
  words : a.index ≠ none → x.expandAssignment a env =
    ((fun r => ⟨a.name, r.1, r.2, a.append⟩) <$> x.expandWords a) env
  eval : ∀ index value env', x.expandWords a env = (.ok (some index, value), env') →
    (x.evalSubscript a.name index env').2 = env'

end WordExpander

/-- No options. -/
def DeclareOptions.absent : DeclareOptions where
  functionNamesOrDefsOnly := false
  functionNamesOnly := false
  createGlobal := false
  makeIndexedArray := .absent
  makeAssociativeArray := .absent
  capitalizeValueOnAssignment := .absent
  makeInteger := .absent
  lowercaseValueOnAssignment := .absent
  makeNameref := .absent
  makeReadonly := .absent
  makeTraced := .absent
  uppercaseValueOnAssignment := .absent
  makeExported := .absent

section

variable [Casing] {W : Type}

omit [Casing] in
def textKey (key : List Char) : Nat := (parseU64 key).getD 0

namespace ShellValue

def isUnset : ShellValue → Bool
  | .unset _ => true
  | _ => false

end ShellValue

namespace ShellVariable

end ShellVariable

variable {v : ShellVariable}

namespace ShellVariable

omit [Casing] in
theorem updateIndexedArray_single (values : ExtTreeMap Nat (List Char)) (key s : List Char) :
    ShellValue.updateIndexedArrayFromLiterals values [(some key, s)] =
      values.insert (textKey key) s := rfl

variable {value s : List Char}

theorem assignAtIndex_indexed (hkind : v.value.isIndexed = true)
    (hunset : ¬(v.readonly = true ∧ v.value.isUnset = true)) (index value : List Char)
    (append : Bool) : v.assignAtIndex index value append =
      (v.setValue (.indexedArray v.value.elements)).storeAtIndex index value append := by
  unfold assignAtIndex
  cases hv : v.value with
  | unset ty =>
    have hty : ty ≠ .associativeArray := by
      rintro rfl
      simp [hv, ShellValue.isIndexed] at hkind
    have hreadonly : v.readonly = false := by
      simpa [hv, ShellValue.isUnset] using hunset
    dsimp only
    rw [assignEmptyArray_of_unset hreadonly hv, if_neg hty]
    rfl
  | string base =>
    dsimp only
    unfold convertToIndexedArray
    rw [hv]
    rfl
  | indexedArray values =>
    show v.storeAtIndex index value append =
      (v.setValue (.indexedArray values)).storeAtIndex index value append
    rw [(v.setValue_eq_self_iff _).2 hv.symm]
  | associativeArray values => simp [hv, ShellValue.isIndexed] at hkind
  | dynamic accessors => simp [hv, ShellValue.isIndexed] at hkind

end ShellVariable

/-! ## The scope of the command -/

namespace ShellEnvironment

omit [Casing] in
theorem popScope_setAt (env : ShellEnvironment) (scope : EnvironmentScope) (i : Nat)
    (name : List Char) (w : Option ShellVariable) (expected : EnvironmentScope) :
    (((env.pushScope scope).setAt (i + 1) name w).popScope expected).2 = env.setAt i name w := rfl

end ShellEnvironment

variable {i : Nat} {name : List Char}

variable {env : ShellEnvironment}

variable {d : NameAndValue}

namespace DeclareOptions

end DeclareOptions

end

end Seahaven.Shell
