import Seahaven.Lib.Op
import Seahaven.Shell.Decimal
import Seahaven.Shell.Failed
import Seahaven.Shell.Scopes

/-!
# Assignments

`apply_assignment` serves an assignment that stands alone and one that stands before a command. The
first kind assigns to the variable the name stands for; the second kind passes over every variable
that is not in a command scope, and creates a variable in the scope of the command.

1. `WordExpander` is the expansion of words; `WordExpander.expand` is what an assignment comes down
   to.
2. `applyAssignment` and `executeCommand` are `interp.rs`, without what is traced.
3. `Akin.assignExisting`: variables that are akin take the same assignments.
4. `StoresAsNew`: when an assignment to a variable stores what it would store in a new one.
-/

namespace Seahaven.Shell

open Std

/-! ## Words -/

/-- The expansions of words and the evaluation of subscripts. They read the environment, and may
change it. -/
structure WordExpander (W : Type) where
  basicWord : W → Op ShellEnvironment Fault (List Char)
  assignmentWord : W → Op ShellEnvironment Fault (List Char)
  /-- `full_expand_and_split_word`. -/
  fields : W → Op ShellEnvironment Fault (List (List Char))
  /-- `arithmetic::expand_and_eval`. -/
  evalIndex : List Char → Op ShellEnvironment Fault Int

inductive AssignmentValue (W : Type)
  | scalar (word : W)
  | array (elements : List (Option W × W))

/-- `ast::Assignment`: an element is assigned if there is an index. -/
structure Assignment (W : Type) where
  name : List Char
  index : Option W
  value : AssignmentValue W
  append : Bool

/-- An assignment whose words are expanded and whose index is evaluated. -/
structure Expanded where
  index : Option (List Char)
  value : ShellValueLiteral

variable {W : Type}

namespace WordExpander

variable (x : WordExpander W)

/-- One member of an array literal. -/
def expandElement : Option W × W →
    Op ShellEnvironment Fault (List (Option (List Char) × List Char))
  | (some key, value) => do
    let key ← x.assignmentWord key
    let value ← x.assignmentWord value
    pure [(some key, value)]
  | (none, value) => do
    let values ← x.fields value
    pure (values.map fun value => (none, value))

/-- The members of an array literal, from left to right. -/
def expandElements : List (Option W × W) →
    Op ShellEnvironment Fault (List (Option (List Char) × List Char))
  | [] => pure []
  | element :: elements => do
    let literals ← x.expandElement element
    let others ← expandElements elements
    pure (literals ++ others)

/-- `expand_assignment_value`. -/
def expandValue : AssignmentValue W → Op ShellEnvironment Fault ShellValueLiteral
  | .scalar word => do
    let value ← x.assignmentWord word
    pure (.scalar value)
  | .array elements => do
    let literals ← x.expandElements elements
    pure (.array literals)

/-- Whether the subscript of a name is evaluated: not if the name stands for an associative
array. -/
def willBeIndexedArray (env : ShellEnvironment) (name : List Char) : Bool :=
  match env.get name with
  | some (_, var) =>
    match var.value with
    | .associativeArray _ => false
    | .unset .associativeArray => false
    | _ => true
  | none => true

/-- The evaluation of a subscript. -/
def evalSubscript (name index : List Char) : Op ShellEnvironment Fault (List Char) := fun env =>
  if willBeIndexedArray env name then
    match x.evalIndex index env with
    | (.ok n, env) => (.ok (i64ToString n), env)
    | (.error fault, env) => (.error fault, env)
  else (.ok index, env)

def expandIndex : Option W → Op ShellEnvironment Fault (Option (List Char))
  | none => pure none
  | some word => do
    let index ← x.basicWord word
    pure (some index)

/-- The subscript of a name, if there is one. -/
def evalIndexOf (name : List Char) :
    Option (List Char) → Op ShellEnvironment Fault (Option (List Char))
  | none => pure none
  | some index => do
    let index ← x.evalSubscript name index
    pure (some index)

/-- The first half of `apply_assignment`. -/
def expand (a : Assignment W) : Op ShellEnvironment Fault Expanded := do
  let index ← x.expandIndex a.index
  let value ← x.expandValue a.value
  let index ← x.evalIndexOf a.name index
  pure ⟨index, value⟩

end WordExpander

/-! ## The assignment -/

namespace ShellValueLiteral

def isArray : ShellValueLiteral → Bool
  | scalar _ => false
  | array _ => true

end ShellValueLiteral

def thenExport (exported : Bool) (r : Attempt ShellVariable Unit) : Attempt ShellVariable Unit :=
  match r with
  | (.error e, v) => (.error e, v)
  | (.ok _, v) => (.ok (), if exported then v.export else v)

section

variable [Casing]

/-- The assignment to a variable that was found; `exportAll` is the option
`export_variables_on_modification`. -/
def assignExisting (e : Expanded) (append exported exportAll : Bool) (v : ShellVariable) :
    Attempt ShellVariable Unit :=
  match e.index with
  | some index =>
    match e.value with
    | .scalar s => thenExport exported (v.assignAtIndex index s append)
    | .array _ => (.error (.error (.unimplemented "replacing an array item with an array")), v)
  | none =>
    thenExport (exported || (exportAll && !e.value.isArray)) (v.assign e.value append)

omit [Casing] in
/-- The value of a variable that is created. -/
def newValue (e : Expanded) : Except Fault ShellValue :=
  match e.index, e.value with
  | some index, .scalar s =>
    .ok (.indexedArray (ShellValue.updateIndexedArrayFromLiterals ∅ [(some index, s)]))
  | some _, .array _ => .error (.error (.unimplemented "cannot assign list to array member"))
  | none, .scalar s => .ok (.string s)
  | none, .array literals =>
    .ok (.indexedArray (ShellValue.updateIndexedArrayFromLiterals ∅ literals))

omit [Casing] in
/-- The end of `apply_assignment`: a variable is created. -/
def createVariable (env : ShellEnvironment) (name : List Char) (e : Expanded)
    (exported exportAll : Bool) (creationScope : EnvironmentScope) :
    Attempt ShellEnvironment Unit :=
  match newValue e with
  | .error fault => (.error fault, env)
  | .ok value =>
    let exported := exported || (exportAll && e.index.isNone && !e.value.isArray)
    let newVar := ShellVariable.new value
    env.add name (if exported then newVar.export else newVar) creationScope

/-- The second half of `apply_assignment`. -/
def assignExpanded (e : Expanded) (name : List Char) (append exported exportAll : Bool)
    (requiredScope : Option EnvironmentScope) (creationScope : EnvironmentScope)
    (env : ShellEnvironment) : Attempt ShellEnvironment Unit :=
  match env.getMut name with
  | some (i, existingValueScope, existingValue) =>
    if requiredScope.isNone ∨ some existingValueScope = requiredScope then
      env.applyAt i name (assignExisting e append exported exportAll existingValue)
    else createVariable env name e exported exportAll creationScope
  | none => createVariable env name e exported exportAll creationScope

def applyAssignment (x : WordExpander W) (exportAll : Bool) (a : Assignment W) (exported : Bool)
    (requiredScope : Option EnvironmentScope) (creationScope : EnvironmentScope)
    (env : ShellEnvironment) : Attempt ShellEnvironment Unit :=
  match x.expand a env with
  | (.error fault, env) => (.error fault, env)
  | (.ok e, env) =>
    assignExpanded e a.name a.append exported exportAll requiredScope creationScope env

def assignAlone (x : WordExpander W) (exportAll : Bool) (a : Assignment W)
    (env : ShellEnvironment) : Attempt ShellEnvironment Unit :=
  applyAssignment x exportAll a false none .global env

def assignForCommand (x : WordExpander W) (exportAll : Bool) (a : Assignment W)
    (env : ShellEnvironment) : Attempt ShellEnvironment Unit :=
  applyAssignment x exportAll a true (some .command) .command env

/-- Assignments one after another, up to the first that fails. -/
def assignEach (assign : Assignment W → ShellEnvironment → Attempt ShellEnvironment Unit) :
    List (Assignment W) → ShellEnvironment → Attempt ShellEnvironment Unit
  | [], env => (.ok (), env)
  | a :: assignments, env =>
    match assign a env with
    | (.error fault, env) => (.error fault, env)
    | (.ok _, env) => assignEach assign assignments env

def commandEnvironment (x : WordExpander W) (exportAll : Bool) (assignments : List (Assignment W))
    (env : ShellEnvironment) : Attempt ShellEnvironment Unit :=
  assignEach (assignForCommand x exportAll) assignments (env.pushScope .command)

/-- `execute_command`, for a command that does `command` to the environment, what the shell does for
it (`BASH_COMMAND`, `$_`) included: the scope is popped behind it, and also if an assignment
fails. -/
def executeCommand (x : WordExpander W) (exportAll : Bool) (assignments : List (Assignment W))
    (command : ShellEnvironment → ShellEnvironment) (env : ShellEnvironment) :
    Attempt ShellEnvironment Unit :=
  match commandEnvironment x exportAll assignments env with
  | (.error fault, env) => (.error fault, (env.popScope .command).2)
  | (.ok _, env) => (.ok (), ((command env).popScope .command).2)

end

/-! ## Variables that are akin -/

/-- The same value, and the same attributes as far as they matter to an assignment. -/
structure Akin (v w : ShellVariable) : Prop where
  value : v.value = w.value
  readonly : v.readonly = w.readonly
  treatAsInteger : v.treatAsInteger = w.treatAsInteger
  transformOnUpdate : v.transformOnUpdate = w.transformOnUpdate

def AkinAttempts (r r' : Attempt ShellVariable Unit) : Prop := r.1 = r'.1 ∧ Akin r.2 r'.2

namespace Akin

variable {v w : ShellVariable}

theorem setValue (h : Akin v w) (value : ShellValue) :
    Akin (v.setValue value) (w.setValue value) :=
  ⟨rfl, h.readonly, h.treatAsInteger, h.transformOnUpdate⟩

theorem same (h : Akin v w) (r : Except Fault Unit) : AkinAttempts (r, v) (r, w) := ⟨rfl, h⟩

theorem stored (h : Akin v w) (r : Except Fault Unit) (value : ShellValue) :
    AkinAttempts (r, v.setValue value) (r, w.setValue value) := ⟨rfl, h.setValue value⟩

theorem convertToIndexedArray (h : Akin v w) :
    AkinAttempts v.convertToIndexedArray w.convertToIndexedArray := by
  unfold ShellVariable.convertToIndexedArray
  rw [h.value]
  split
  · exact h.same _
  · exact h.same _
  · exact h.stored _ _

theorem replaceByArray (h : Akin v w) (literals : List (Option (List Char) × List Char)) :
    AkinAttempts (v.replaceByArray literals) (w.replaceByArray literals) := by
  unfold ShellVariable.replaceByArray
  rw [h.value]
  split
  · split
    · exact h.stored _ _
    · exact h.same _
  · split
    · exact h.stored _ _
    · exact h.same _
  · exact h.stored _ _

theorem assignEmptyArray (h : Akin v w) :
    AkinAttempts v.assignEmptyArray w.assignEmptyArray := by
  unfold ShellVariable.assignEmptyArray
  rw [h.readonly]
  split_ifs
  · exact h.same _
  · exact h.replaceByArray []

variable [Casing]

theorem convertValueStr (h : Akin v w) (s : List Char) :
    v.convertValueStr s = w.convertValueStr s := by
  unfold ShellVariable.convertValueStr
  rw [h.treatAsInteger, h.transformOnUpdate]

theorem convertValueLiteral (h : Akin v w) (value : ShellValueLiteral) :
    v.convertValueLiteral value = w.convertValueLiteral value := by
  unfold ShellVariable.convertValueLiteral
  simp only [h.convertValueStr]

omit [Casing] in
theorem elementValue (h : Akin v w) (existing : Option (List Char)) (value : List Char)
    (append : Bool) :
    v.elementValue existing value append = w.elementValue existing value append := by
  unfold ShellVariable.elementValue
  rw [h.treatAsInteger]

theorem storeAtIndex (h : Akin v w) (index value : List Char) (append : Bool) :
    AkinAttempts (v.storeAtIndex index value append) (w.storeAtIndex index value append) := by
  unfold ShellVariable.storeAtIndex
  rw [h.convertValueStr, h.value]
  simp only [h.elementValue]
  split
  · exact h.same _
  · split
    · split
      · exact h.same _
      · exact h.stored _ _
    · exact h.stored _ _
    · exact h.same _

theorem assignAtIndex (h : Akin v w) (index value : List Char) (append : Bool) :
    AkinAttempts (v.assignAtIndex index value append) (w.assignAtIndex index value append) := by
  have hempty := h.assignEmptyArray
  have hconvert := h.convertToIndexedArray
  unfold ShellVariable.assignAtIndex
  rw [h.value]
  split
  · generalize v.assignEmptyArray = r at hempty ⊢
    generalize w.assignEmptyArray = r' at hempty ⊢
    obtain ⟨r, v'⟩ := r
    obtain ⟨r', w'⟩ := r'
    obtain ⟨hr, hakin⟩ := hempty
    cases hr
    cases r with
    | error e => exact Akin.same hakin _
    | ok _ => exact Akin.storeAtIndex hakin index value append
  · generalize v.convertToIndexedArray = r at hconvert ⊢
    generalize w.convertToIndexedArray = r' at hconvert ⊢
    obtain ⟨r, v'⟩ := r
    obtain ⟨r', w'⟩ := r'
    obtain ⟨hr, hakin⟩ := hconvert
    cases hr
    cases r with
    | error e => exact Akin.same hakin _
    | ok _ => exact Akin.storeAtIndex hakin index value append
  · exact h.storeAtIndex index value append

theorem replaceBy (h : Akin v w) (value : ShellValueLiteral) :
    AkinAttempts (v.replaceBy value) (w.replaceBy value) := by
  cases value with
  | array literals => exact h.replaceByArray literals
  | scalar s =>
    unfold ShellVariable.replaceBy
    rw [h.value]
    dsimp only
    split
    · exact h.assignAtIndex _ _ _
    · exact h.assignAtIndex _ _ _
    · exact h.assignAtIndex _ _ _
    · exact h.assignAtIndex _ _ _
    · exact h.same _
    · exact h.stored _ _
    · exact h.stored _ _

theorem prepareAppend (h : Akin v w) (value : ShellValueLiteral) :
    AkinAttempts (v.prepareAppend value) (w.prepareAppend value) := by
  unfold ShellVariable.prepareAppend
  rw [h.value, h.convertValueStr]
  split
  · split
    · exact h.replaceBy _
    · exact h.same _
  · exact h.assignEmptyArray
  · exact h.convertToIndexedArray
  · exact h.same _

theorem appendTo (h : Akin v w) (value : ShellValueLiteral) :
    AkinAttempts (v.appendTo value) (w.appendTo value) := by
  unfold ShellVariable.appendTo
  rw [h.value, h.treatAsInteger, h.transformOnUpdate]
  split
  · split
    · exact h.stored _ _
    · split
      · exact h.stored _ _
      · exact h.stored _ _
  · exact h.same _
  · exact h.assignAtIndex _ _ _
  · exact h.stored _ _
  · exact h.assignAtIndex _ _ _
  · exact h.stored _ _
  · exact h.same _
  · exact h.same _

theorem assign (h : Akin v w) (value : ShellValueLiteral) (append : Bool) :
    AkinAttempts (v.assign value append) (w.assign value append) := by
  unfold ShellVariable.assign
  rw [h.readonly, h.convertValueLiteral]
  split
  · exact h.same _
  · split
    · exact h.same _
    · next converted _ =>
      split
      · have hprepare := h.prepareAppend converted
        generalize v.prepareAppend converted = r at hprepare ⊢
        generalize w.prepareAppend converted = r' at hprepare ⊢
        obtain ⟨r, v'⟩ := r
        obtain ⟨r', w'⟩ := r'
        obtain ⟨hr, hakin⟩ := hprepare
        cases hr
        cases r with
        | error e => exact Akin.same hakin _
        | ok _ => exact Akin.appendTo hakin converted
      · exact h.replaceBy converted

/-- **Akin.** Variables that are akin take the same assignments. -/
theorem assignExisting (h : Akin v w) (e : Expanded)
    (append exported exported' exportAll : Bool) :
    AkinAttempts (assignExisting e append exported exportAll v)
      (Seahaven.Shell.assignExisting e append exported' exportAll w) := by
  have hexport : ∀ {r r' : Attempt ShellVariable Unit} (b b' : Bool), AkinAttempts r r' →
      AkinAttempts (thenExport b r) (thenExport b' r') := by
    rintro ⟨r, v'⟩ ⟨r', w'⟩ b b' ⟨hr, hakin⟩
    cases hr
    cases r with
    | error e => exact Akin.same hakin _
    | ok _ =>
      refine ⟨rfl, ?_⟩
      obtain ⟨hvalue, hreadonly, hint, htransform⟩ := hakin
      cases b <;> cases b' <;> exact ⟨hvalue, hreadonly, hint, htransform⟩
  unfold Seahaven.Shell.assignExisting
  split
  · split
    · exact hexport _ _ (h.assignAtIndex _ _ _)
    · exact h.same _
  · exact hexport _ _ (h.assign _ _)

end Akin

/-! ## What an assignment leaves alone -/

def SetsValue (v : ShellVariable) (r : Attempt ShellVariable Unit) : Prop :=
  ∃ value, r.2 = v.setValue value

namespace SetsValue

variable {v : ShellVariable}

theorem same (r : Except Fault Unit) : SetsValue v (r, v) := ⟨v.value, rfl⟩

theorem stored (r : Except Fault Unit) (value : ShellValue) : SetsValue v (r, v.setValue value) :=
  ⟨value, rfl⟩

theorem of_setValue {value : ShellValue} {r : Attempt ShellVariable Unit}
    (h : SetsValue (v.setValue value) r) : SetsValue v r := h

theorem convertToIndexedArray : SetsValue v v.convertToIndexedArray := by
  unfold ShellVariable.convertToIndexedArray
  split
  · exact same _
  · exact same _
  · exact stored _ _

theorem replaceByArray (literals : List (Option (List Char) × List Char)) :
    SetsValue v (v.replaceByArray literals) := by
  unfold ShellVariable.replaceByArray
  split
  · split
    · exact stored _ _
    · exact same _
  · split
    · exact stored _ _
    · exact same _
  · exact stored _ _

theorem assignEmptyArray : SetsValue v v.assignEmptyArray := by
  unfold ShellVariable.assignEmptyArray
  split_ifs
  · exact same _
  · exact replaceByArray []

variable [Casing]

theorem storeAtIndex (index value : List Char) (append : Bool) :
    SetsValue v (v.storeAtIndex index value append) := by
  unfold ShellVariable.storeAtIndex
  split
  · exact same _
  · split
    · split
      · exact same _
      · exact stored _ _
    · exact stored _ _
    · exact same _

theorem assignAtIndex (index value : List Char) (append : Bool) :
    SetsValue v (v.assignAtIndex index value append) := by
  unfold ShellVariable.assignAtIndex
  split
  · have hempty : SetsValue v v.assignEmptyArray := assignEmptyArray
    generalize v.assignEmptyArray = r at hempty ⊢
    obtain ⟨_ | _, w⟩ := r
    · exact hempty
    · obtain ⟨value', rfl⟩ := hempty
      exact of_setValue (storeAtIndex index value append)
  · have hconvert : SetsValue v v.convertToIndexedArray := convertToIndexedArray
    generalize v.convertToIndexedArray = r at hconvert ⊢
    obtain ⟨_ | _, w⟩ := r
    · exact hconvert
    · obtain ⟨value', rfl⟩ := hconvert
      exact of_setValue (storeAtIndex index value append)
  · exact storeAtIndex index value append

theorem replaceBy (value : ShellValueLiteral) : SetsValue v (v.replaceBy value) := by
  cases value with
  | array literals => exact replaceByArray literals
  | scalar s =>
    unfold ShellVariable.replaceBy
    dsimp only
    split
    · exact assignAtIndex _ _ _
    · exact assignAtIndex _ _ _
    · exact assignAtIndex _ _ _
    · exact assignAtIndex _ _ _
    · exact same _
    · exact stored _ _
    · exact stored _ _

theorem prepareAppend (value : ShellValueLiteral) : SetsValue v (v.prepareAppend value) := by
  unfold ShellVariable.prepareAppend
  split
  · split
    · exact replaceBy _
    · exact same _
  · exact assignEmptyArray
  · exact convertToIndexedArray
  · exact same _

theorem appendTo (value : ShellValueLiteral) : SetsValue v (v.appendTo value) := by
  unfold ShellVariable.appendTo
  split
  · split
    · exact stored _ _
    · split
      · exact stored _ _
      · exact stored _ _
  · exact same _
  · exact assignAtIndex _ _ _
  · exact stored _ _
  · exact assignAtIndex _ _ _
  · exact stored _ _
  · exact same _
  · exact same _

theorem assign (value : ShellValueLiteral) (append : Bool) :
    SetsValue v (v.assign value append) := by
  unfold ShellVariable.assign
  split
  · exact same _
  · split
    · exact same _
    · next converted _ =>
      split
      · have hprepare : SetsValue v (v.prepareAppend converted) := prepareAppend converted
        generalize v.prepareAppend converted = r at hprepare ⊢
        obtain ⟨_ | _, w⟩ := r
        · exact hprepare
        · obtain ⟨value', rfl⟩ := hprepare
          exact of_setValue (appendTo converted)
      · exact replaceBy converted

end SetsValue

/-- A variable that takes a text as it is. -/
structure IsPlain (v : ShellVariable) : Prop where
  readonly : v.readonly = false
  treatAsInteger : v.treatAsInteger = false
  transformOnUpdate : v.transformOnUpdate = .none

theorem IsPlain.akin {v w : ShellVariable} (hv : IsPlain v) (hw : IsPlain w)
    (h : v.value = w.value) : Akin v w :=
  ⟨h, hv.readonly.trans hw.readonly.symm, hv.treatAsInteger.trans hw.treatAsInteger.symm,
    hv.transformOnUpdate.trans hw.transformOnUpdate.symm⟩

theorem isPlain_new (value : ShellValue) : IsPlain (ShellVariable.new value) := ⟨rfl, rfl, rfl⟩

section

variable [Casing]

theorem assignExisting_attributes (e : Expanded) (append exported exportAll : Bool)
    (v : ShellVariable) :
    (assignExisting e append exported exportAll v).2.readonly = v.readonly ∧
      (assignExisting e append exported exportAll v).2.treatAsInteger = v.treatAsInteger ∧
      (assignExisting e append exported exportAll v).2.transformOnUpdate = v.transformOnUpdate := by
  have hexport : ∀ {r : Attempt ShellVariable Unit} (b : Bool), SetsValue v r →
      (thenExport b r).2.readonly = v.readonly ∧
        (thenExport b r).2.treatAsInteger = v.treatAsInteger ∧
        (thenExport b r).2.transformOnUpdate = v.transformOnUpdate := by
    rintro ⟨r, w⟩ b ⟨value, hw⟩
    cases hw
    cases r <;> cases b <;> exact ⟨rfl, rfl, rfl⟩
  unfold assignExisting
  split
  · split
    · exact hexport _ (.assignAtIndex _ _ _)
    · exact ⟨rfl, rfl, rfl⟩
  · exact hexport _ (.assign _ _)

theorem IsPlain.assignExisting {v : ShellVariable} (h : IsPlain v) (e : Expanded)
    (append exported exportAll : Bool) :
    IsPlain (assignExisting e append exported exportAll v).2 := by
  obtain ⟨hreadonly, hint, htransform⟩ := assignExisting_attributes e append exported exportAll v
  exact ⟨hreadonly.trans h.readonly, hint.trans h.treatAsInteger,
    htransform.trans h.transformOnUpdate⟩

end

/-! ## The first assignment to a name -/

def ShellValue.elements : ShellValue → ExtTreeMap Nat (List Char)
  | .string s => (∅ : ExtTreeMap Nat (List Char)).insert 0 s
  | .indexedArray values => values
  | _ => ∅

def ShellValue.isIndexed : ShellValue → Bool
  | .unset .untyped | .unset .indexedArray | .string _ | .indexedArray _ => true
  | _ => false

def ShellValue.isAssociative : ShellValue → Bool
  | .unset .associativeArray | .associativeArray _ => true
  | _ => false

section

variable [Casing]

/-- Whether what is assigned to a variable is what is assigned to a new one: the variable is of the
kind of a new one, takes the texts as they are, and holds nothing that the assignment keeps. -/
def StoresAsNew (e : Expanded) (append : Bool) (v : ShellVariable) : Prop :=
  match e.index, e.value with
  | none, .scalar s =>
    v.readonly = false ∧ v.convertValueStr s = .ok s ∧
      (v.value = .unset .untyped ∧
          (append = true → v.treatAsInteger = true ∨ v.convertValueStr [] = .ok []) ∨
        ∃ base, v.value = .string base ∧ (append = true → base = []))
  | none, .array literals =>
    v.readonly = false ∧ (∀ l ∈ literals, v.convertValueStr l.2 = .ok l.2) ∧
      v.value.isAssociative = false ∧
      (append = true → v.value.isIndexed = true ∧ v.value.elements = ∅)
  | some index, .scalar s =>
    v.readonly = false ∧ v.convertValueStr s = .ok s ∧ v.value.isIndexed = true ∧
      ∃ key : Nat, (parseU64 index).getD 0 = key ∧ (parseI64 index).getD 0 = key ∧
        ∀ k t, v.value.elements[k]? = some t → k = key ∧ (append = true → t = [])
  | some _, .array _ => True

variable {s : List Char}

omit [Casing] in
theorem addAsI64_of_canonical {base : List Char} (hbase : (parseI64 base).getD 0 = 0)
    (hs : i64ToString ((parseI64 s).getD 0) = s) : addAsI64 base s = s := by
  have hi := isI64_parseI64 s
  unfold addAsI64
  rw [hbase, Int.zero_add, Int.bmod_eq_of_le (by unfold IsI64 at hi; omega)
    (by unfold IsI64 at hi; omega), hs]

theorem canonical_of_convertValueStr {v : ShellVariable}
    (hint : v.treatAsInteger = true) (h : v.convertValueStr s = .ok s) :
    i64ToString ((parseI64 s).getD 0) = s := by
  unfold ShellVariable.convertValueStr ShellVariable.applyValueTransforms at h
  rw [if_pos hint] at h
  exact Except.ok.inj h

variable {append : Bool}

theorem elementValue_of_empty {v : ShellVariable}
    (h : v.convertValueStr s = .ok s) {existing : Option (List Char)}
    (hexisting : append = true → existing.getD [] = []) :
    v.elementValue existing s append = s := by
  unfold ShellVariable.elementValue
  split_ifs with happend hint
  · rw [hexisting happend]
    exact addAsI64_of_canonical rfl (canonical_of_convertValueStr hint h)
  · rw [hexisting happend]
    rfl
  · rfl

theorem storeAtIndex_single {v : ShellVariable} {arr : ExtTreeMap Nat (List Char)}
    (hv : v.value = .indexedArray arr) {index : List Char}
    (htext : v.convertValueStr s = .ok s) {key : Nat} (hkey : (parseI64 index).getD 0 = key)
    (helements : ∀ k t, arr[k]? = some t → k = key ∧ (append = true → t = [])) :
    v.storeAtIndex index s append =
      (.ok (), v.setValue (.indexedArray ((∅ : ExtTreeMap Nat (List Char)).insert key s))) := by
  have hindex : getKeyForIndexedArray arr index = .ok key := by
    unfold getKeyForIndexedArray
    rw [hkey]
    dsimp only
    rw [if_neg (by omega), Int.toNat_natCast]
  have hvalue : v.elementValue arr[key]? s append = s := by
    refine elementValue_of_empty htext fun happend => ?_
    cases harr : arr[key]? with
    | none => rfl
    | some t => exact (helements key t harr).2 happend
  have hinsert : arr.insert key s = (∅ : ExtTreeMap Nat (List Char)).insert key s := by
    refine ExtTreeMap.ext_getElem? fun k => ?_
    rw [ExtTreeMap.getElem?_insert, ExtTreeMap.getElem?_insert]
    split_ifs with hk
    · rfl
    · cases harr : arr[k]? with
      | none => rfl
      | some t =>
        rw [(helements k t harr).1, compare_self] at hk
        exact absurd rfl hk
  unfold ShellVariable.storeAtIndex
  rw [htext, hv]
  dsimp only
  rw [hindex]
  dsimp only
  rw [hvalue, hinsert]

theorem assignAtIndex_single {v : ShellVariable} (hreadonly : v.readonly = false)
    (hkind : v.value.isIndexed = true) {index : List Char}
    (htext : v.convertValueStr s = .ok s) {key : Nat} (hkey : (parseI64 index).getD 0 = key)
    (helements : ∀ k t, v.value.elements[k]? = some t → k = key ∧ (append = true → t = [])) :
    v.assignAtIndex index s append =
      (.ok (), v.setValue (.indexedArray ((∅ : ExtTreeMap Nat (List Char)).insert key s))) := by
  unfold ShellVariable.assignAtIndex
  cases hv : v.value with
  | dynamic accessors =>
    rw [hv] at hkind
    cases hkind
  | associativeArray values =>
    rw [hv] at hkind
    cases hkind
  | indexedArray values =>
    rw [hv] at helements
    exact storeAtIndex_single hv htext hkey helements
  | string base =>
    have hconvert : v.convertToIndexedArray = (.ok (), v.setValue (.indexedArray
        ((∅ : ExtTreeMap Nat (List Char)).insert 0 base))) := by
      unfold ShellVariable.convertToIndexedArray
      rw [hv]
      rfl
    rw [hv] at helements
    dsimp only
    rw [hconvert]
    exact storeAtIndex_single (v := v.setValue _) rfl htext hkey helements
  | unset ty =>
    have hty : ty ≠ .associativeArray := by
      rintro rfl
      rw [hv] at hkind
      cases hkind
    dsimp only
    rw [ShellVariable.assignEmptyArray_of_unset hreadonly hv, if_neg hty]
    refine storeAtIndex_single (v := v.setValue _) rfl htext hkey fun k t hk => ?_
    cases hk

theorem literal_of_convertValueStr {v : ShellVariable} (value : ShellValueLiteral)
    (h : match value with
      | .scalar s => v.convertValueStr s = .ok s
      | .array literals => ∀ l ∈ literals, v.convertValueStr l.2 = .ok l.2) :
    v.convertValueLiteral value = .ok value := by
  unfold ShellVariable.convertValueLiteral
  cases value with
  | scalar s =>
    dsimp only at h ⊢
    rw [h]
    rfl
  | array literals =>
    dsimp only at h ⊢
    have hm : (literals.mapM fun l => (v.convertValueStr l.2).map fun s => (l.1, s)) =
        .ok literals := by
      induction literals with
      | nil => rfl
      | cons l literals ih =>
        rw [List.mapM_cons, h l List.mem_cons_self,
          ih fun l hl => h l (List.mem_cons_of_mem _ hl)]
        rfl
    rw [hm]
    rfl

theorem appendTo_nothing {v : ShellVariable} {base : List Char} (hv : v.value = .string base)
    (htext : v.convertValueStr s = .ok s) (hinteger : (parseI64 base).getD 0 = 0)
    (hempty : v.treatAsInteger = false → base = []) :
    v.appendTo (.scalar s) = (.ok (), v.setValue (.string s)) := by
  unfold ShellVariable.appendTo
  rw [hv]
  dsimp only
  split_ifs with hint
  · rw [addAsI64_of_canonical hinteger (canonical_of_convertValueStr hint htext)]
  · have hint : v.treatAsInteger = false := Bool.not_eq_true _ ▸ hint
    have htransform : ShellVariable.applyValueTransforms false v.transformOnUpdate (base ++ s) =
        .ok s := by
      unfold ShellVariable.convertValueStr at htext
      rw [hempty hint, List.nil_append, ← hint]
      exact htext
    rw [htransform]

theorem assign_scalar_new {v : ShellVariable}
    (hreadonly : v.readonly = false) (htext : v.convertValueStr s = .ok s)
    (hkind : v.value = .unset .untyped ∧
        (append = true → v.treatAsInteger = true ∨ v.convertValueStr [] = .ok []) ∨
      ∃ base, v.value = .string base ∧ (append = true → base = [])) :
    v.assign (.scalar s) append = (.ok (), v.setValue (.string s)) := by
  unfold ShellVariable.assign
  rw [if_neg (by rw [hreadonly]; exact Bool.false_ne_true),
    literal_of_convertValueStr (.scalar s) htext]
  dsimp only
  cases append with
  | false =>
    rw [if_neg Bool.false_ne_true]
    unfold ShellVariable.replaceBy
    rcases hkind with ⟨hv, -⟩ | ⟨base, hv, -⟩
    · rw [hv]
    · rw [hv]
  | true =>
    rw [if_pos rfl]
    rcases hkind with ⟨hv, hempty⟩ | ⟨base, hv, hbase⟩
    · have hprepare : ∃ base, v.prepareAppend (.scalar s) = (.ok (), v.setValue (.string base)) ∧
          (parseI64 base).getD 0 = 0 ∧ (v.treatAsInteger = false → base = []) := by
        unfold ShellVariable.prepareAppend
        rw [hv]
        dsimp only
        cases hint : v.treatAsInteger with
        | true =>
          have hzero : v.convertValueStr [] = .ok (i64ToString 0) := by
            unfold ShellVariable.convertValueStr ShellVariable.applyValueTransforms
            rw [if_pos hint]
            rfl
          rw [hzero]
          dsimp only
          unfold ShellVariable.replaceBy
          rw [hv]
          exact ⟨_, rfl, by decide, nofun⟩
        | false =>
          have hnone : v.convertValueStr [] = .ok [] :=
            (hempty rfl).resolve_left (by rw [hint]; exact Bool.false_ne_true)
          rw [hnone]
          dsimp only
          unfold ShellVariable.replaceBy
          rw [hv]
          exact ⟨_, rfl, rfl, fun _ => rfl⟩
      obtain ⟨base, hprepare, hinteger, hbase⟩ := hprepare
      rw [hprepare]
      exact appendTo_nothing (v := v.setValue _) rfl htext hinteger hbase
    · have hprepare : v.prepareAppend (.scalar s) = (.ok (), v) := by
        unfold ShellVariable.prepareAppend
        rw [hv]
      rw [hprepare]
      dsimp only
      rw [hbase rfl] at hv
      exact appendTo_nothing hv htext rfl fun _ => rfl

theorem assign_array_new {v : ShellVariable} {literals : List (Option (List Char) × List Char)}
    (hreadonly : v.readonly = false)
    (htexts : ∀ l ∈ literals, v.convertValueStr l.2 = .ok l.2)
    (hkind : v.value.isAssociative = false)
    (hempty : append = true → v.value.isIndexed = true ∧ v.value.elements = ∅) :
    v.assign (.array literals) append = (.ok (), v.setValue
      (.indexedArray (ShellValue.updateIndexedArrayFromLiterals ∅ literals))) := by
  unfold ShellVariable.assign
  rw [if_neg (by rw [hreadonly]; exact Bool.false_ne_true),
    literal_of_convertValueStr (.array literals) htexts]
  dsimp only
  cases append with
  | false =>
    rw [if_neg Bool.false_ne_true]
    unfold ShellVariable.replaceBy ShellVariable.replaceByArray
    cases hv : v.value with
    | unset ty =>
      cases ty with
      | associativeArray =>
        rw [hv] at hkind
        cases hkind
      | untyped => rfl
      | indexedArray => rfl
    | associativeArray values =>
      rw [hv] at hkind
      cases hkind
    | string s => rfl
    | indexedArray values => rfl
    | dynamic accessors => rfl
  | true =>
    obtain ⟨hindexed, helements⟩ := hempty rfl
    rw [if_pos rfl]
    have hprepare : ∃ w, v.prepareAppend (.array literals) = (.ok (), w) ∧
        w = v.setValue (.indexedArray ∅) := by
      unfold ShellVariable.prepareAppend
      cases hv : v.value with
      | unset ty =>
        have hty : ty ≠ .associativeArray := by
          rintro rfl
          rw [hv] at hkind
          cases hkind
        cases ty with
        | associativeArray => exact absurd rfl hty
        | untyped =>
          exact ⟨_, ShellVariable.assignEmptyArray_of_unset hreadonly hv, rfl⟩
        | indexedArray =>
          exact ⟨_, ShellVariable.assignEmptyArray_of_unset hreadonly hv, rfl⟩
      | string s =>
        rw [hv] at helements
        have hzero := congrArg (fun m => m[0]?) helements
        unfold ShellValue.elements at hzero
        dsimp only at hzero
        rw [ExtTreeMap.getElem?_insert_self] at hzero
        cases hzero
      | indexedArray values =>
        rw [hv] at helements
        unfold ShellValue.elements at helements
        refine ⟨_, rfl, ?_⟩
        rw [← helements, ← hv]
        rfl
      | associativeArray values =>
        rw [hv] at hkind
        cases hkind
      | dynamic accessors =>
        rw [hv] at hindexed
        cases hindexed
    obtain ⟨w, hprepare, rfl⟩ := hprepare
    rw [hprepare]
    rfl

/-- **The first assignment.** A variable that stores what a new one does. -/
theorem assignExisting_of_storesAsNew {v : ShellVariable} {e : Expanded}
    (h : StoresAsNew e append v) (exportAll : Bool) {value : ShellValue}
    (hnew : newValue e = .ok value) :
    (assignExisting e append false exportAll v).1 = .ok () ∧
      (assignExisting e append false exportAll v).2.value = value := by
  have hexport : ∀ (b : Bool) (w : ShellVariable),
      (thenExport b (.ok (), w)).1 = .ok () ∧
        (thenExport b (.ok (), w)).2.value = w.value := by
    intro b w
    cases b <;> exact ⟨rfl, rfl⟩
  obtain ⟨index, literal⟩ := e
  unfold StoresAsNew at h
  unfold newValue at hnew
  unfold assignExisting
  cases index with
  | none =>
    cases literal with
    | scalar s =>
      obtain ⟨hreadonly, htext, hkind⟩ := h
      cases hnew
      dsimp only
      rw [assign_scalar_new hreadonly htext hkind]
      exact hexport _ _
    | array literals =>
      obtain ⟨hreadonly, htexts, hkind, hempty⟩ := h
      cases hnew
      dsimp only
      rw [assign_array_new hreadonly htexts hkind hempty]
      exact hexport _ _
  | some index =>
    cases literal with
    | scalar s =>
      obtain ⟨hreadonly, htext, hkind, key, hunsigned, hsigned, helements⟩ := h
      cases hnew
      have hsingle : ShellValue.updateIndexedArrayFromLiterals ∅ [(some index, s)] =
          (∅ : ExtTreeMap Nat (List Char)).insert key s := by
        unfold ShellValue.updateIndexedArrayFromLiterals
        simp only [List.foldl_cons, List.foldl_nil, ShellValue.insertLiteral, hunsigned]
      dsimp only
      rw [assignAtIndex_single hreadonly hkind htext hsigned helements, hsingle]
      exact hexport _ _
    | array literals => cases hnew

end

end Seahaven.Shell
