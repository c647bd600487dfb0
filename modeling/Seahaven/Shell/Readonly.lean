import Mathlib.Tactic.SplitIfs
import Mathlib.Tactic.ByContra
import Seahaven.Shell.Environment

/-!
# Read-only variables

`assign` and `unset` look at the read-only attribute first. `assign_at_index`, `unset_index` and
the conversions do not, and `add` overwrites what it finds. So a read-only variable keeps its value
exactly where none of these has anything to change.

1. `VarOp.Spares`, `EnvOp.Spares`: the operations that have nothing to change.
2. `VarOp.value_run_iff`: one operation on a read-only variable.
3. `EnvOp.kept_iff`: one operation on the environment that holds it.
4. `steady_iff`: every sequence of operations.
-/

namespace Seahaven.Shell

open Std

/-! ## Entries of an environment -/

variable {i j : Nat} {name : List Char} {env : ShellEnvironment} {v : ShellVariable}
  {lookup : EnvironmentLookup}

namespace ShellEnvironment

theorem varAt_setAt (env : ShellEnvironment) (i j : Nat) (name m : List Char)
    (w : Option ShellVariable) (hi : i < env.scopes.length) :
    (env.setAt i name w).varAt j m = if j = i ∧ m = name then w else env.varAt j m := by
  unfold varAt setAt
  dsimp only
  rw [List.getElem?_modify]
  by_cases hj : i = j
  · subst hj
    rw [List.getElem?_eq_getElem hi]
    by_cases hm : m = name <;> simp [hm]
  · have hj' : ¬(j = i ∧ m = name) := fun h => hj h.1.symm
    rw [if_neg hj']
    cases env.scopes[j]? <;> simp [hj]

theorem varAt_setAt_self (env : ShellEnvironment) (name : List Char)
    (w : Option ShellVariable) (hi : i < env.scopes.length) :
    (env.setAt i name w).varAt i name = w := by
  rw [varAt_setAt env i i name name w hi, if_pos ⟨rfl, rfl⟩]

theorem varAt_setAt_of_ne (env : ShellEnvironment) {m : List Char}
    (w : Option ShellVariable) (h : ¬(j = i ∧ m = name)) :
    (env.setAt i name w).varAt j m = env.varAt j m := by
  by_cases hi : i < env.scopes.length
  · rw [varAt_setAt env i j name m w hi, if_neg h]
  · unfold varAt setAt
    dsimp only
    rw [List.modify_eq_self (by omega)]

theorem lt_of_varAt (h : env.varAt i name = some v) : i < env.scopes.length := by
  by_contra hi
  rw [varAt, List.getElem?_eq_none (by omega)] at h
  cases h

theorem varAt_of_findIn : ∀ {scopes : List (EnvironmentScope × ShellVariableMap)} {count : Nat},
      findIn lookup name count scopes = some (i, v) →
      (scopes[i]?.bind fun s => s.2 name) = some v := by
  intro scopes
  induction scopes generalizing i with
  | nil => intro count h; cases h
  | cons s scopes ih =>
    obtain ⟨scope, map⟩ := s
    intro count h
    have deeper : ∀ {count}, ((findIn lookup name count scopes).map
        fun r => (r.1 + 1, r.2)) = some (i, v) →
        ((((scope, map) :: scopes)[i]?).bind fun s => s.2 name) = some v := by
      intro count h
      obtain ⟨⟨j, w⟩, hj, hr⟩ := Option.map_eq_some_iff.1 h
      cases hr
      exact ih hj
    unfold findIn at h
    dsimp only at h
    split at h
    · cases hm : map name with
      | some w =>
        rw [hm] at h
        cases h
        exact hm
      | none =>
        rw [hm] at h
        dsimp only at h
        split at h
        · cases h
        · exact deeper h
    · exact deeper h

theorem varAt_of_find (h : env.find lookup name = some (i, v)) :
    env.varAt i name = some v := varAt_of_findIn h

theorem findIn_modify (lookup : EnvironmentLookup) (name m : List Char) (w : ShellVariable) :
    ∀ (scopes : List (EnvironmentScope × ShellVariableMap)) (i count : Nat) {v : ShellVariable},
      (scopes[i]?.bind fun s => s.2 name) = some v →
      findIn lookup m count
          (scopes.modify i fun s => (s.1, Function.update s.2 name (some w))) =
        (findIn lookup m count scopes).map fun r =>
          if r.1 = i ∧ m = name then (r.1, w) else r := by
  intro scopes
  induction scopes with
  | nil => intro i count v h; cases h
  | cons s scopes ih =>
    obtain ⟨scope, map⟩ := s
    intro i count v h
    cases i with
    | zero =>
      have hv : map name = some v := h
      have hdeeper : ∀ count, ((findIn lookup m count scopes).map fun r => (r.1 + 1, r.2)) =
          ((findIn lookup m count scopes).map fun r => (r.1 + 1, r.2)).map
            fun r => if r.1 = 0 ∧ m = name then (r.1, w) else r := by
        intro count
        cases findIn lookup m count scopes <;> simp
      rw [List.modify_zero_cons]
      unfold findIn
      dsimp only
      split_ifs with ha hc
      · by_cases hm : m = name
        · subst hm
          simp [hv]
        · rw [Function.update_of_ne hm]
          cases map m with
          | none => simp
          | some u => simp [hm]
      · by_cases hm : m = name
        · subst hm
          simp [hv]
        · rw [Function.update_of_ne hm]
          cases map m with
          | none => exact hdeeper _
          | some u => simp [hm]
      · exact hdeeper _
    | succ i =>
      have hdeeper : ∀ count, ((findIn lookup m count
            (scopes.modify i fun s => (s.1, Function.update s.2 name (some w)))).map
            fun r => (r.1 + 1, r.2)) =
          ((findIn lookup m count scopes).map fun r => (r.1 + 1, r.2)).map
            fun r => if r.1 = i + 1 ∧ m = name then (r.1, w) else r := by
        intro count
        rw [ih i count h]
        cases findIn lookup m count scopes with
        | none => rfl
        | some r =>
          simp only [Option.map_some, Nat.add_right_cancel_iff]
          split_ifs <;> rfl
      rw [List.modify_succ_cons]
      unfold findIn
      dsimp only
      split_ifs with ha hc
      · cases map m <;> simp
      · cases map m with
        | none => exact hdeeper _
        | some u => simp
      · exact hdeeper _

theorem find_setAt (h : env.varAt i name = some v) (w : ShellVariable) (lookup : EnvironmentLookup)
    (m : List Char) :
    (env.setAt i name (some w)).find lookup m =
      (env.find lookup m).map fun r => if r.1 = i ∧ m = name then (r.1, w) else r :=
  findIn_modify lookup name m w env.scopes i 0 h

end ShellEnvironment

/-! ## Finite maps -/

section

variable {α β : Type} {cmp : α → α → Ordering} [TransCmp cmp] [LawfulEqCmp cmp]

theorem insert_eq_self_iff (m : ExtTreeMap α β cmp) (k : α) (b : β) :
    m.insert k b = m ↔ m[k]? = some b := by
  constructor
  · intro h
    rw [← h]
    exact ExtTreeMap.getElem?_insert_self
  · intro h
    refine ExtTreeMap.ext_getElem? fun j => ?_
    rw [ExtTreeMap.getElem?_insert]
    split_ifs with hj
    · rw [← LawfulEqCmp.eq_of_compare hj, h]
    · rfl

theorem erase_eq_self_iff (m : ExtTreeMap α β cmp) (k : α) :
    m.erase k = m ↔ m[k]? = none := by
  constructor
  · intro h
    rw [← h]
    exact ExtTreeMap.getElem?_erase_self
  · intro h
    refine ExtTreeMap.ext_getElem? fun j => ?_
    rw [ExtTreeMap.getElem?_erase]
    split_ifs with hj
    · rw [← LawfulEqCmp.eq_of_compare hj, h]
    · rfl

end

/-! ## Operations on a read-only variable -/

namespace ShellVariable

def unlocked (v : ShellVariable) : ShellVariable := { v with readonly := false }

@[simp] theorem unlocked_value (v : ShellVariable) : v.unlocked.value = v.value := rfl

@[simp] theorem setValue_value (v : ShellVariable) (value : ShellValue) :
    (v.setValue value).value = value := rfl

@[simp] theorem setValue_readonly (v : ShellVariable) (value : ShellValue) :
    (v.setValue value).readonly = v.readonly := rfl

theorem convertToIndexedArray_readonly (v : ShellVariable) :
    v.convertToIndexedArray.2.readonly = v.readonly := by
  unfold convertToIndexedArray
  cases v.value <;> rfl

theorem convertToAssociativeArray_readonly (v : ShellVariable) :
    v.convertToAssociativeArray.2.readonly = v.readonly := by
  unfold convertToAssociativeArray
  cases v.value <;> rfl

theorem unsetIndex_readonly (v : ShellVariable) (index : List Char) :
    (v.unsetIndex index).2.readonly = v.readonly := by
  unfold unsetIndex
  rcases v.value with (_ | _ | _) | _ | _ | values | _ <;> try rfl
  cases h : getKeyForIndexedArray values index <;> simp [h]

section

variable [Casing]

theorem storeAtIndex_readonly (v : ShellVariable) (index value : List Char) (append : Bool) :
    (v.storeAtIndex index value append).2.readonly = v.readonly := by
  unfold storeAtIndex
  cases v.convertValueStr value with
  | error e => rfl
  | ok value =>
    dsimp only
    cases v.value with
    | indexedArray arr =>
      dsimp only
      cases getKeyForIndexedArray arr index <;> rfl
    | _ => rfl

theorem assign_of_readonly (hv : v.readonly = true)
    (value : ShellValueLiteral) (append : Bool) :
    v.assign value append = (.error (.error .readonlyVariable), v) := by
  unfold assign
  rw [if_pos hv]

omit [Casing] in
theorem assignEmptyArray_of_readonly (hv : v.readonly = true) :
    v.assignEmptyArray = (.error (.error .readonlyVariable), v) := by
  unfold assignEmptyArray
  rw [if_pos hv]

theorem assignAtIndex_readonly (hv : v.readonly = true)
    (index value : List Char) (append : Bool) :
    (v.assignAtIndex index value append).2.readonly = true := by
  unfold assignAtIndex
  cases h : v.value with
  | unset ty =>
    dsimp only
    rw [assignEmptyArray_of_readonly hv]
    exact hv
  | string s =>
    dsimp only
    have hr := v.convertToIndexedArray_readonly
    rcases hc : v.convertToIndexedArray with ⟨_ | _, w⟩ <;> rw [hc] at hr
    · exact hr.trans hv
    · exact (storeAtIndex_readonly w index value append).trans (hr.trans hv)
  | associativeArray _ => exact (storeAtIndex_readonly v index value append).trans hv
  | indexedArray _ => exact (storeAtIndex_readonly v index value append).trans hv
  | dynamic _ => exact (storeAtIndex_readonly v index value append).trans hv

theorem storeAtIndex_unlocked_value (v : ShellVariable) (index value : List Char)
    (append : Bool) :
    (v.unlocked.storeAtIndex index value append).2.value =
      (v.storeAtIndex index value append).2.value := by
  unfold storeAtIndex
  have hconvert : v.unlocked.convertValueStr value = v.convertValueStr value := rfl
  rw [hconvert]
  cases v.convertValueStr value with
  | error e => rfl
  | ok value =>
    rw [unlocked_value]
    dsimp only
    cases v.value with
    | indexedArray arr =>
      dsimp only
      cases getKeyForIndexedArray arr index <;> rfl
    | _ => rfl

end

end ShellVariable

namespace VarOp

variable [Casing]

/-- The operations that have nothing to change in a read-only variable: every `assign`, which
refuses, and of the others those that would store what is there, or remove what is not. -/
def Spares (v : ShellVariable) : VarOp → Prop
  | assign _ _ => True
  | assignAtIndex index value append =>
    match v.value with
    | .unset _ | .dynamic _ => True
    | .string _ => False
    | .associativeArray arr => ∀ s, v.convertValueStr value = .ok s →
        arr[index]? = some (v.elementValue arr[index]? s append)
    | .indexedArray arr => ∀ s, v.convertValueStr value = .ok s →
        ∀ key, getKeyForIndexedArray arr index = .ok key →
          arr[key]? = some (v.elementValue arr[key]? s append)
  | unsetIndex index =>
    match v.value with
    | .unset _ | .dynamic _ | .string _ => True
    | .associativeArray arr => arr[index]? = none
    | .indexedArray arr => ∀ key, getKeyForIndexedArray arr index = .ok key → arr[key]? = none
  | convertToIndexedArray =>
    match v.value with
    | .indexedArray _ | .associativeArray _ => True
    | _ => False
  | convertToAssociativeArray =>
    match v.value with
    | .indexedArray _ | .associativeArray _ => True
    | _ => False

/-- **Operations on variables.** An operation leaves a read-only variable its value exactly if it
has nothing to change. -/
theorem value_run_iff (hv : v.readonly = true) (op : VarOp) :
    (op.run v).2.value = v.value ↔ op.Spares v := by
  cases op with
  | assign value append =>
    unfold run Spares
    dsimp only
    rw [ShellVariable.assign_of_readonly hv]
    exact iff_of_true rfl trivial
  | assignAtIndex index value append =>
    unfold run Spares ShellVariable.assignAtIndex
    dsimp only
    cases h : v.value with
    | unset ty =>
      dsimp only
      rw [ShellVariable.assignEmptyArray_of_readonly hv]
      exact iff_of_true h trivial
    | string s =>
      refine iff_of_false ?_ id
      dsimp only
      unfold ShellVariable.convertToIndexedArray ShellVariable.storeAtIndex
      rw [h]
      dsimp only
      generalize ShellVariable.convertValueStr _ value = r
      cases r with
      | error e => nofun
      | ok value =>
        dsimp only [ShellVariable.setValue_value]
        generalize getKeyForIndexedArray _ index = key
        cases key <;> nofun
    | associativeArray arr =>
      unfold ShellVariable.storeAtIndex
      dsimp only
      cases v.convertValueStr value with
      | error e => exact iff_of_true h nofun
      | ok s =>
        dsimp only
        rw [h]
        simp [insert_eq_self_iff]
    | indexedArray arr =>
      unfold ShellVariable.storeAtIndex
      dsimp only
      cases v.convertValueStr value with
      | error e => exact iff_of_true h nofun
      | ok s =>
        dsimp only
        rw [h]
        dsimp only
        cases getKeyForIndexedArray arr index with
        | error e => exact iff_of_true h fun _ _ => nofun
        | ok key => simp [insert_eq_self_iff]
    | dynamic accessors =>
      unfold ShellVariable.storeAtIndex
      dsimp only
      refine iff_of_true ?_ trivial
      cases v.convertValueStr value <;> simp [h]
  | unsetIndex index =>
    unfold run Spares ShellVariable.unsetIndex Attempt.drop
    dsimp only
    cases h : v.value with
    | unset ty => cases ty <;> exact iff_of_true h trivial
    | string s => exact iff_of_true h trivial
    | associativeArray arr => simp [erase_eq_self_iff]
    | indexedArray arr =>
      dsimp only
      cases getKeyForIndexedArray arr index with
      | error e => exact iff_of_true h fun _ => nofun
      | ok key => simp [erase_eq_self_iff]
    | dynamic accessors => exact iff_of_true h trivial
  | convertToIndexedArray =>
    unfold run Spares ShellVariable.convertToIndexedArray
    dsimp only
    cases h : v.value <;> simp [h]
  | convertToAssociativeArray =>
    unfold run Spares ShellVariable.convertToAssociativeArray
    dsimp only
    cases h : v.value <;> simp [h]

theorem readonly_run (hv : v.readonly = true) (op : VarOp) :
    (op.run v).2.readonly = true := by
  cases op with
  | assign value append =>
    unfold run
    dsimp only
    rw [ShellVariable.assign_of_readonly hv]
    exact hv
  | assignAtIndex index value append => exact v.assignAtIndex_readonly hv index value append
  | unsetIndex index => exact (v.unsetIndex_readonly index).trans hv
  | convertToIndexedArray => exact v.convertToIndexedArray_readonly.trans hv
  | convertToAssociativeArray => exact v.convertToAssociativeArray_readonly.trans hv

/-- An operation with nothing to change that would have changed the variable, were it not
read-only, fails. -/
theorem refused (hv : v.readonly = true) {op : VarOp} (h : op.Spares v)
    (hc : (op.run v.unlocked).2.value ≠ v.value) :
    ∃ e, (op.run v).1 = .error (.error e) := by
  have hkept := (value_run_iff hv op).2 h
  cases op with
  | assign value append =>
    exact ⟨_, congrArg Prod.fst (v.assign_of_readonly hv value append)⟩
  | assignAtIndex index value append =>
    unfold run ShellVariable.assignAtIndex at hc hkept ⊢
    dsimp only at hc hkept ⊢
    rw [ShellVariable.unlocked_value] at hc
    cases hval : v.value with
    | unset ty =>
      dsimp only
      rw [ShellVariable.assignEmptyArray_of_readonly hv]
      exact ⟨_, rfl⟩
    | string s =>
      unfold Spares at h
      rw [hval] at h
      exact h.elim
    | _ =>
      rw [hval] at hc hkept
      exact absurd ((v.storeAtIndex_unlocked_value index value append).trans hkept) hc
  | unsetIndex index =>
    refine absurd ?_ hc
    rw [← hkept]
    unfold run Attempt.drop ShellVariable.unsetIndex
    dsimp only
    rw [ShellVariable.unlocked_value]
    cases v.value with
    | unset ty => cases ty <;> rfl
    | indexedArray arr => dsimp only; cases getKeyForIndexedArray arr index <;> rfl
    | _ => rfl
  | convertToIndexedArray =>
    refine absurd ?_ hc
    rw [← hkept]
    unfold run ShellVariable.convertToIndexedArray
    dsimp only
    rw [ShellVariable.unlocked_value]
    cases v.value <;> rfl
  | convertToAssociativeArray =>
    refine absurd ?_ hc
    rw [← hkept]
    unfold run ShellVariable.convertToAssociativeArray
    dsimp only
    rw [ShellVariable.unlocked_value]
    cases v.value <;> rfl

end VarOp

/-! ## Operations on an environment that holds a read-only variable -/

variable {w : ShellVariable} {n : List Char}

namespace ShellEnvironment

/-- The scope at position `i` has the name, read-only and with the value `v`'s. -/
def Holds (env : ShellEnvironment) (i : Nat) (name : List Char) (v : ShellVariable) : Prop :=
  ∃ w, env.varAt i name = some w ∧ w.value = v.value ∧ w.readonly = true

/-- The scope at position `i` has the name, with the value `v`'s. -/
def HasValue (env : ShellEnvironment) (i : Nat) (name : List Char) (v : ShellVariable) : Prop :=
  ∃ w, env.varAt i name = some w ∧ w.value = v.value

def unlockAt (env : ShellEnvironment) (i : Nat) (name : List Char) (v : ShellVariable) :
    ShellEnvironment := env.setAt i name (some v.unlocked)

/-- The position of the scope in which `add` creates a variable. -/
def target (env : ShellEnvironment) (scope : EnvironmentScope) : Option Nat :=
  env.scopes.findIdx? fun s => s.1 = scope

def assigned (literal : ShellValueLiteral) : ShellVariable :=
  fresh.setValue (match literal with
    | .scalar s => .string s
    | .array literals => .indexedArray (ShellValue.updateIndexedArrayFromLiterals ∅ literals))

/-- `assigned`, exported if the environment exports what it modifies. -/
def created (env : ShellEnvironment) (literal : ShellValueLiteral) : ShellVariable :=
  if env.exportVariablesOnModification then (assigned literal).export else assigned literal

theorem HasValue.congr {env' : ShellEnvironment} (h : env.HasValue i name v)
    (he : env'.varAt i name = env.varAt i name) : env'.HasValue i name v := by
  obtain ⟨w, hw, hv⟩ := h
  exact ⟨w, he.trans hw, hv⟩

theorem Holds.congr {env' : ShellEnvironment} (h : env.Holds i name v)
    (he : env'.varAt i name = env.varAt i name) : env'.Holds i name v := by
  obtain ⟨w, hw, hv⟩ := h
  exact ⟨w, he.trans hw, hv⟩

theorem hasValue_unlockAt (h : env.varAt i name = some v) :
    (env.unlockAt i name v).HasValue i name v :=
  ⟨v.unlocked, env.varAt_setAt_self name _ (lt_of_varAt h), rfl⟩

theorem target_setAt (env : ShellEnvironment) (i : Nat) (name : List Char)
    (w : Option ShellVariable) (scope : EnvironmentScope) :
    (env.setAt i name w).target scope = env.target scope := by
  unfold target setAt
  dsimp only
  generalize env.scopes = scopes
  induction scopes generalizing i with
  | nil => simp
  | cons s scopes ih =>
    cases i with
    | zero => simp [List.findIdx?_cons]
    | succ i => simp [List.findIdx?_cons, ih]

theorem find_unlockAt (h : env.varAt i name = some v) (lookup : EnvironmentLookup) (m : List Char) :
    (env.unlockAt i name v).find lookup m =
      (env.find lookup m).map fun r => if r.1 = i ∧ m = name then (r.1, v.unlocked) else r :=
  find_setAt h v.unlocked lookup m

theorem varAt_add (env : ShellEnvironment) (n : List Char) (w : ShellVariable)
    (scope : EnvironmentScope)
    (h : ¬(env.target scope = some i ∧ n = name)) :
    (env.add n w scope).2.varAt i name = env.varAt i name := by
  unfold add
  dsimp only
  cases ht : env.scopes.findIdx? fun s => s.1 = scope with
  | none => rfl
  | some j =>
    have hne : ¬(i = j ∧ name = n) := by
      rintro ⟨rfl, rfl⟩
      exact h ⟨ht, rfl⟩
    exact env.varAt_setAt_of_ne _ hne

theorem lt_of_target {scope : EnvironmentScope}
    (h : env.target scope = some i) : i < env.scopes.length := by
  unfold target at h
  rw [List.findIdx?_eq_some_iff_getElem] at h
  exact h.1

theorem not_holds_add (env : ShellEnvironment) {scope : EnvironmentScope}
    (h : env.target scope = some i) (name : List Char)
    (hw : w.readonly = false) (v : ShellVariable) :
    ¬(env.add name w scope).2.Holds i name v := by
  rintro ⟨u, hu, -, hr⟩
  rw [target] at h
  unfold add at hu
  dsimp only at hu
  rw [h] at hu
  have := (env.varAt_setAt_self name _ (lt_of_target h)).symm.trans hu
  rw [Option.some.injEq] at this
  rw [← this] at hr
  split at hr
  · exact absurd (hw.symm.trans hr) (by decide)
  · exact absurd (hw.symm.trans hr) (by decide)

section

variable [Casing]

theorem convertValueLiteral_fresh (literal : ShellValueLiteral) :
    fresh.convertValueLiteral literal = .ok literal := by
  have htext : ∀ s, fresh.convertValueStr s = .ok s := fun s => rfl
  cases literal with
  | scalar s => rfl
  | array literals =>
    unfold ShellVariable.convertValueLiteral
    dsimp only
    simp only [htext]
    induction literals with
    | nil => rfl
    | cons l literals ih =>
      rw [List.mapM_cons]
      cases hm : literals.mapM fun l => (Except.ok l.2 : Except Fault _).map fun s => (l.1, s) with
      | error e => rw [hm] at ih; cases ih
      | ok ls =>
        rw [hm] at ih
        cases ih
        rfl

theorem assign_fresh (literal : ShellValueLiteral) :
    fresh.assign literal false = (.ok (), assigned literal) := by
  unfold ShellVariable.assign
  rw [if_neg (by decide), convertValueLiteral_fresh]
  cases literal <;> rfl

theorem update_fresh (env : ShellEnvironment) (literal : ShellValueLiteral) (updater : Updater) :
    env.update literal updater fresh = updater.run (env.created literal) := by
  unfold update created
  rw [assign_fresh]

omit [Casing] in
theorem readonly_created (env : ShellEnvironment) (literal : ShellValueLiteral) :
    (env.created literal).readonly = false := by
  unfold created
  split_ifs <;> rfl

theorem update_of_readonly (env : ShellEnvironment) (literal : ShellValueLiteral)
    (updater : Updater) (hv : v.readonly = true) :
    env.update literal updater v = (.error (.error .readonlyVariable), v) := by
  unfold update
  rw [ShellVariable.assign_of_readonly hv]

end

theorem thenUpdate_value (r : Attempt ShellVariable Unit) (updater : Updater) :
    (thenUpdate r updater).2.value = r.2.value := by
  rcases r with ⟨_ | _, v⟩
  · rfl
  · exact updater.value_run v

theorem thenUpdate_readonly (r : Attempt ShellVariable Unit) (updater : Updater) :
    (thenUpdate r updater).2.readonly = r.2.readonly := by
  rcases r with ⟨_ | _, v⟩
  · rfl
  · exact updater.readonly_run v

theorem varAt_applyAt_of_ne {α : Type} (env : ShellEnvironment)
    (r : Attempt ShellVariable α) (h : ¬(j = i ∧ n = name)) :
    (env.applyAt j n r).2.varAt i name = env.varAt i name :=
  env.varAt_setAt_of_ne _ fun hc => h ⟨hc.1.symm, hc.2.symm⟩

theorem varAt_applyAt_self {α : Type} (env : ShellEnvironment)
    (r : Attempt ShellVariable α) (hi : i < env.scopes.length) :
    (env.applyAt i name r).2.varAt i name = some r.2 :=
  env.varAt_setAt_self name _ hi

theorem holds_applyAt_iff {α : Type} (h : env.varAt i name = some v) (hv : v.readonly = true)
    (r : Attempt ShellVariable α) (hr : j = i → n = name → r.2.readonly = true) :
    (env.applyAt j n r).2.Holds i name v ↔ (j = i ∧ n = name → r.2.value = v.value) := by
  by_cases hhit : j = i ∧ n = name
  · obtain ⟨rfl, rfl⟩ := hhit
    unfold Holds
    rw [env.varAt_applyAt_self r (lt_of_varAt h)]
    constructor
    · rintro ⟨w, ⟨⟩, hw, -⟩ -
      exact hw
    · exact fun hw => ⟨_, rfl, hw ⟨rfl, rfl⟩, hr rfl rfl⟩
  · exact iff_of_true (Holds.congr ⟨v, h, rfl, hv⟩ (env.varAt_applyAt_of_ne r hhit))
      fun hc => absurd hc hhit

theorem holds_create_iff (h : env.varAt i name = some v) (hv : v.readonly = true)
    (scope : EnvironmentScope) {r : Attempt ShellVariable Unit} (hr : r.2.readonly = false) :
    (env.addNew n scope r).2.Holds i name v ↔
      (n = name → env.target scope = some i → ∃ e, r.1 = .error e) := by
  rcases r with ⟨e | ⟨⟨⟩⟩, w⟩
  · exact iff_of_true ⟨v, h, rfl, hv⟩ fun _ _ => ⟨e, rfl⟩
  · by_cases hhit : env.target scope = some i ∧ n = name
    · refine iff_of_false ?_ ?_
      · obtain ⟨ht, rfl⟩ := hhit
        exact not_holds_add env ht n hr v
      · intro hc
        obtain ⟨e, he⟩ := hc hhit.2 hhit.1
        cases he
    · refine iff_of_true (Holds.congr ⟨v, h, rfl, hv⟩ (env.varAt_add n w scope hhit)) ?_
      exact fun hn ht => absurd ⟨ht, hn⟩ hhit

end ShellEnvironment

namespace EnvOp

open ShellEnvironment

variable [Casing]

/-- The operations that have nothing to change in a read-only variable `name` of the scope at
position `i`: those that do not reach it, those that `VarOp.Spares` lists, and the creation of a
variable in its place whose updater fails. -/
def Spares (env : ShellEnvironment) (i : Nat) (name : List Char) : EnvOp → Prop
  | updateOrAdd n value updater lookup scope =>
    env.find lookup n = none → n = name → env.target scope = some i →
      ∃ e, (updater.run (env.created value)).1 = .error e
  | updateOrAddArrayElement n index value updater lookup scope =>
    (∀ v, env.find lookup n = some (i, v) → n = name →
      (VarOp.assignAtIndex index value false).Spares v) ∧
    (env.find lookup n = none → n = name → env.target scope = some i →
      ∃ e, (updater.run (assigned (.array [(some index, value)]))).1 = .error e)
  | unset _ => True
  | unsetIndex n index =>
    ∀ v, env.find .anywhere n = some (i, v) → n = name → (VarOp.unsetIndex index).Spares v
  | onVariable n lookup op => ∀ v, env.find lookup n = some (i, v) → n = name → op.Spares v

/-- What one operation owes a read-only variable `v`: it keeps its value and its attribute, and if
it would have changed a variable that is not read-only then it fails. -/
def Guards (env : ShellEnvironment) (i : Nat) (name : List Char) (v : ShellVariable)
    (op : EnvOp) : Prop :=
  (op.run env).2.Holds i name v ∧
    (¬(op.run (env.unlockAt i name v)).2.HasValue i name v →
      ∃ e, (op.run env).1 = .error (.error e))

omit [Casing] in
theorem eq_of_find (h : env.varAt i name = some v)
    (hf : env.find lookup n = some (j, w)) (hhit : j = i ∧ n = name) : w = v := by
  obtain ⟨rfl, rfl⟩ := hhit
  exact Option.some.inj ((varAt_of_find hf).symm.trans h)

theorem hit_iff (h : env.varAt i name = some v) (hv : v.readonly = true)
    (hf : env.find lookup n = some (j, w)) (op : VarOp) :
    (j = i ∧ n = name → (op.run w).2.value = v.value) ↔
      ∀ u, some (j, w) = some (i, u) → n = name → op.Spares u := by
  constructor
  · rintro hkept u ⟨⟩ hn
    have hw := eq_of_find h hf ⟨rfl, hn⟩
    subst hw
    exact (VarOp.value_run_iff hv op).1 (hkept ⟨rfl, hn⟩)
  · rintro hspares ⟨rfl, hn⟩
    have hw := eq_of_find h hf ⟨rfl, hn⟩
    subst hw
    exact (VarOp.value_run_iff hv op).2 (hspares w rfl hn)

/-- **One operation.** A read-only variable keeps its value and its attribute exactly under the
operations that have nothing to change. -/
theorem holds_run_iff (h : env.varAt i name = some v) (hv : v.readonly = true) (op : EnvOp) :
    (op.run env).2.Holds i name v ↔ op.Spares env i name := by
  have hstays : env.Holds i name v := ⟨v, h, rfl, hv⟩
  cases op with
  | updateOrAdd n value updater lookup scope =>
    unfold run Spares ShellEnvironment.updateOrAdd
    dsimp only
    cases hf : env.find lookup n with
    | none =>
      have hr := (updater.readonly_run (env.created value)).trans (env.readonly_created value)
      rw [← env.update_fresh value updater] at hr ⊢
      refine (holds_create_iff h hv scope hr).trans ?_
      simp
    | some r =>
      obtain ⟨j, w⟩ := r
      refine iff_of_true ?_ nofun
      rw [holds_applyAt_iff h hv]
      · intro hhit
        rw [eq_of_find h hf hhit, env.update_of_readonly value updater hv]
      · intro hj hn
        rw [eq_of_find h hf ⟨hj, hn⟩, env.update_of_readonly value updater hv]
        exact hv
  | updateOrAddArrayElement n index value updater lookup scope =>
    unfold run Spares ShellEnvironment.updateOrAddArrayElement
    dsimp only
    cases hf : env.find lookup n with
    | none =>
      have hr : (thenUpdate (fresh.assign (.array [(some index, value)]) false)
          updater).2.readonly = false := by
        rw [thenUpdate_readonly, assign_fresh]
        rfl
      refine (holds_create_iff h hv scope hr).trans ?_
      rw [assign_fresh]
      simp [thenUpdate]
    | some r =>
      obtain ⟨j, w⟩ := r
      rw [holds_applyAt_iff h hv]
      · rw [thenUpdate_value]
        have hmiss : (some (j, w) = none → n = name → env.target scope = some i →
            ∃ e, (updater.run (assigned (.array [(some index, value)]))).1 = .error e) := nofun
        exact (hit_iff h hv hf (.assignAtIndex index value false)).trans
          (and_iff_left hmiss).symm
      · intro hj hn
        rw [thenUpdate_readonly, eq_of_find h hf ⟨hj, hn⟩]
        exact v.assignAtIndex_readonly hv index value false
  | unset n =>
    unfold run Spares Attempt.drop ShellEnvironment.unset
    refine iff_of_true ?_ trivial
    dsimp only
    cases hf : env.find .anywhere n with
    | none => exact hstays
    | some r =>
      obtain ⟨j, w⟩ := r
      dsimp only
      split_ifs with hro hlocal
      · exact hstays
      all_goals
        have hne : ¬(i = j ∧ name = n) := by
          intro hhit
          rw [eq_of_find h hf ⟨hhit.1.symm, hhit.2.symm⟩] at hro
          exact hro hv
        exact Holds.congr hstays (env.varAt_setAt_of_ne _ hne)
  | unsetIndex n index =>
    unfold run Spares Attempt.drop ShellEnvironment.unsetIndex
    dsimp only
    cases hf : env.find .anywhere n with
    | none => exact iff_of_true hstays (by rintro _ ⟨⟩)
    | some r =>
      obtain ⟨j, w⟩ := r
      refine (holds_applyAt_iff h hv (w.unsetIndex index) ?_).trans ?_
      · intro hj hn
        rw [eq_of_find h hf ⟨hj, hn⟩]
        exact (v.unsetIndex_readonly index).trans hv
      · exact hit_iff h hv hf (.unsetIndex index)
  | onVariable n lookup op =>
    unfold run Spares
    dsimp only
    cases hf : env.find lookup n with
    | none => exact iff_of_true hstays (by rintro _ ⟨⟩)
    | some r =>
      obtain ⟨j, w⟩ := r
      refine (holds_applyAt_iff h hv (op.run w) ?_).trans ?_
      · intro hj hn
        rw [eq_of_find h hf ⟨hj, hn⟩]
        exact VarOp.readonly_run hv op
      · exact hit_iff h hv hf op

omit [Casing] in
theorem refused_hit {α : Type} (h : env.varAt i name = some v)
    (f : ShellVariable → Attempt ShellVariable α)
    (hc : ¬((env.unlockAt i name v).applyAt
      (if j = i ∧ n = name then (j, v.unlocked) else (j, w)).1 n
        (f (if j = i ∧ n = name then (j, v.unlocked) else (j, w)).2)).2.HasValue i name v) :
    (j = i ∧ n = name) ∧ (f v.unlocked).2.value ≠ v.value := by
  have hval := hasValue_unlockAt h
  have hlt : i < (env.unlockAt i name v).scopes.length := by
    obtain ⟨u, hu, -⟩ := hval
    exact lt_of_varAt hu
  by_cases hhit : j = i ∧ n = name
  · rw [if_pos hhit] at hc
    obtain ⟨rfl, rfl⟩ := hhit
    refine ⟨⟨rfl, rfl⟩, fun he => hc ⟨_, varAt_applyAt_self _ _ hlt, he⟩⟩
  · rw [if_neg hhit] at hc
    exact absurd (hval.congr (varAt_applyAt_of_ne _ _ hhit)) hc

/-- An operation with nothing to change that would have changed the variable, were it not
read-only, fails. -/
theorem refused (h : env.varAt i name = some v) (hv : v.readonly = true) {op : EnvOp}
    (hs : op.Spares env i name)
    (hc : ¬(op.run (env.unlockAt i name v)).2.HasValue i name v) :
    ∃ e, (op.run env).1 = .error (.error e) := by
  have hval := hasValue_unlockAt h
  have hnew : ∀ {n : List Char} {r : Attempt ShellVariable Unit} {scope : EnvironmentScope},
      (n = name → env.target scope = some i → ∃ e, r.1 = .error e) →
      ((env.unlockAt i name v).addNew n scope r).2.HasValue i name v := by
    intro n r scope ht
    rcases r with ⟨e | ⟨⟨⟩⟩, w⟩
    · exact hval
    · refine hval.congr ((env.unlockAt i name v).varAt_add n w scope ?_)
      rw [unlockAt, target_setAt]
      rintro ⟨ht', hn⟩
      obtain ⟨e, he⟩ := ht hn ht'
      cases he
  cases op with
  | updateOrAdd n value updater lookup scope =>
    unfold run ShellEnvironment.updateOrAdd at hc ⊢
    unfold Spares at hs
    dsimp only at hc hs ⊢
    rw [find_unlockAt h] at hc
    cases hf : env.find lookup n with
    | none =>
      rw [hf] at hc
      change ¬((env.unlockAt i name v).addNew n scope
        (env.update value updater fresh)).2.HasValue i name v at hc
      rw [update_fresh] at hc
      exact absurd (hnew (hs hf)) hc
    | some r =>
      obtain ⟨j, w⟩ := r
      rw [hf] at hc
      dsimp only [Option.map_some] at hc ⊢
      have hhit := (refused_hit h (env.update value updater) hc).1
      rw [eq_of_find h hf hhit, env.update_of_readonly value updater hv]
      exact ⟨_, rfl⟩
  | updateOrAddArrayElement n index value updater lookup scope =>
    unfold run ShellEnvironment.updateOrAddArrayElement at hc ⊢
    unfold Spares at hs
    dsimp only at hc hs ⊢
    rw [find_unlockAt h] at hc
    cases hf : env.find lookup n with
    | none =>
      rw [hf, assign_fresh] at hc
      exact absurd (hnew (hs.2 hf)) hc
    | some r =>
      obtain ⟨j, w⟩ := r
      rw [hf] at hc
      dsimp only [Option.map_some] at hc ⊢
      obtain ⟨hhit, hchanged⟩ := refused_hit h
        (fun u => thenUpdate (u.assignAtIndex index value false) updater) hc
      have hw := eq_of_find h hf hhit
      subst hw
      obtain ⟨rfl, rfl⟩ := hhit
      rw [thenUpdate_value] at hchanged
      obtain ⟨e, he⟩ := VarOp.refused hv (hs.1 w hf rfl) hchanged
      refine ⟨e, ?_⟩
      unfold applyAt
      change (w.assignAtIndex index value false).1 = _ at he
      rcases hr : w.assignAtIndex index value false with ⟨e' | u, w'⟩
      · rw [hr] at he
        exact he
      · rw [hr] at he
        cases he
  | unset n =>
    unfold run Attempt.drop ShellEnvironment.unset at hc ⊢
    dsimp only at hc ⊢
    rw [find_unlockAt h] at hc
    cases hf : env.find .anywhere n with
    | none =>
      rw [hf] at hc
      exact absurd hval hc
    | some r =>
      obtain ⟨j, w⟩ := r
      rw [hf] at hc
      dsimp only [Option.map_some] at hc ⊢
      by_cases hhit : j = i ∧ n = name
      · rw [eq_of_find h hf hhit, if_pos hv]
        exact ⟨_, rfl⟩
      · have hne : ¬(i = j ∧ name = n) := fun hc' => hhit ⟨hc'.1.symm, hc'.2.symm⟩
        rw [if_neg hhit] at hc
        refine absurd ?_ hc
        dsimp only
        split_ifs with hro hlocal
        · exact hval
        · exact hval.congr ((env.unlockAt i name v).varAt_setAt_of_ne _ hne)
        · exact hval.congr ((env.unlockAt i name v).varAt_setAt_of_ne _ hne)
  | unsetIndex n index =>
    unfold run Attempt.drop ShellEnvironment.unsetIndex at hc ⊢
    unfold Spares at hs
    dsimp only at hc hs ⊢
    rw [find_unlockAt h] at hc
    cases hf : env.find .anywhere n with
    | none =>
      rw [hf] at hc
      exact absurd hval hc
    | some r =>
      obtain ⟨j, w⟩ := r
      rw [hf] at hc
      dsimp only [Option.map_some] at hc ⊢
      obtain ⟨hhit, hchanged⟩ := refused_hit h (fun u => u.unsetIndex index) hc
      have hw := eq_of_find h hf hhit
      subst hw
      obtain ⟨rfl, rfl⟩ := hhit
      exact VarOp.refused hv (hs w hf rfl) hchanged
  | onVariable n lookup op =>
    unfold run at hc ⊢
    unfold Spares at hs
    dsimp only at hc hs ⊢
    rw [find_unlockAt h] at hc
    cases hf : env.find lookup n with
    | none =>
      rw [hf] at hc
      exact absurd hval hc
    | some r =>
      obtain ⟨j, w⟩ := r
      rw [hf] at hc
      dsimp only [Option.map_some] at hc ⊢
      obtain ⟨hhit, hchanged⟩ := refused_hit h op.run hc
      have hw := eq_of_find h hf hhit
      subst hw
      obtain ⟨rfl, rfl⟩ := hhit
      exact VarOp.refused hv (hs w hf rfl) hchanged

theorem guards_iff (h : env.varAt i name = some v) (hv : v.readonly = true) (op : EnvOp) :
    op.Guards env i name v ↔ op.Spares env i name :=
  ⟨fun hg => (holds_run_iff h hv op).1 hg.1,
    fun hs => ⟨(holds_run_iff h hv op).2 hs, refused h hv hs⟩⟩

end EnvOp

/-! ## Sequences of operations -/

section

open ShellEnvironment

variable [Casing]

/-- All along a run the entry `(i, name)` is read-only with the value of `v`, and each operation
does what it owes it. -/
def Steady (i : Nat) (name : List Char) (v : ShellVariable) :
    ShellEnvironment → List EnvOp → Prop
  | env, [] => env.Holds i name v
  | env, op :: ops =>
    (∃ w, env.varAt i name = some w ∧ w.value = v.value ∧ w.readonly = true ∧
      op.Guards env i name w) ∧ Steady i name v (op.run env).2 ops

/-- No operation of a run has anything to change in the entry `(i, name)`, in the environment that
it meets. -/
def SparedBy (i : Nat) (name : List Char) : ShellEnvironment → List EnvOp → Prop
  | _, [] => True
  | env, op :: ops => op.Spares env i name ∧ SparedBy i name (op.run env).2 ops

theorem steady_of_holds (i : Nat) (name : List Char) (v : ShellVariable) (ops : List EnvOp) :
    ∀ {env : ShellEnvironment}, env.Holds i name v →
      (Steady i name v env ops ↔ SparedBy i name env ops) := by
  induction ops with
  | nil => exact fun h => iff_of_true h trivial
  | cons op ops ih =>
    rintro env ⟨w, hw, hval, hro⟩
    have hstep := EnvOp.guards_iff hw hro op
    have hnext : op.Guards env i name w → (op.run env).2.Holds i name v := by
      rintro ⟨⟨u, hu, huv, hur⟩, -⟩
      exact ⟨u, hu, huv.trans hval, hur⟩
    constructor
    · rintro ⟨⟨w', hw', -, -, hg⟩, hrest⟩
      cases hw.symm.trans hw'
      exact ⟨hstep.1 hg, (ih (hnext hg)).1 hrest⟩
    · rintro ⟨hs, hrest⟩
      have hg := hstep.2 hs
      exact ⟨⟨w, hw, hval, hro, hg⟩, (ih (hnext hg)).2 hrest⟩

omit [Casing] in
theorem holds_setReadonly (h : env.varAt i name = some v) :
    (env.setAt i name (some v.setReadonly)).Holds i name v :=
  ⟨v.setReadonly, env.varAt_setAt_self name _ (lt_of_varAt h), rfl, rfl⟩

/-- **Read-only variables.** Once a variable has been made read-only, it keeps its value and its
attribute through a run, and the operations that would have changed it fail, exactly if none of
them stores an element, removes one, converts, or creates the variable anew. -/
theorem steady_iff {env : ShellEnvironment} {i : Nat} {name : List Char} {v : ShellVariable}
    (h : env.varAt i name = some v) (ops : List EnvOp) :
    Steady i name v (env.setAt i name (some v.setReadonly)) ops ↔
      SparedBy i name (env.setAt i name (some v.setReadonly)) ops :=
  steady_of_holds i name v ops (holds_setReadonly h)

end

/-- An environment in which `x` is `a`. -/
def oneVariable : ShellEnvironment where
  scopes := [(.global, fun n =>
    if n = ['x'] then some (ShellVariable.new (.string ['a'])) else none)]
  exportVariablesOnModification := false
  entryCount := 1

/-- `readonly x; x=b; x+=c; unset x` leaves `x` what it was. -/
theorem steady_assigned : @Steady asciiCasing 0 ['x'] (ShellVariable.new (.string ['a']))
      (oneVariable.setAt 0 ['x'] (some (ShellVariable.new (.string ['a'])).setReadonly))
      [.onVariable ['x'] .anywhere (.assign (.scalar ['b']) false),
        .onVariable ['x'] .anywhere (.assign (.scalar ['c']) true), .unset ['x']] :=
  (@steady_iff asciiCasing oneVariable 0 ['x'] (ShellVariable.new (.string ['a'])) rfl _).2
    ⟨fun _ _ _ => trivial, fun _ _ _ => trivial, trivial, trivial⟩

/-- `readonly x; x[0]=b` makes `x` an array. -/
theorem not_steady_element : ¬ @Steady asciiCasing 0 ['x'] (ShellVariable.new (.string ['a']))
      (oneVariable.setAt 0 ['x'] (some (ShellVariable.new (.string ['a'])).setReadonly))
      [.onVariable ['x'] .anywhere (.assignAtIndex ['0'] ['b'] false)] := by
  let _ := asciiCasing
  have hx : oneVariable.varAt 0 ['x'] = some (ShellVariable.new (.string ['a'])) := rfl
  rw [steady_of_holds _ _ _ _ (holds_setReadonly hx)]
  rintro ⟨hs, -⟩
  exact hs _ rfl rfl

end Seahaven.Shell
