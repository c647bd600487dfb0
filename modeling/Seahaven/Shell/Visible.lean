import Mathlib.Data.List.ReduceOption
import Seahaven.Shell.Scopes

/-!
# What a child sees

A child gets the variables of `iter_exported`, which takes for each name the topmost variable that
is exported, and so one that a variable which is not exported hides.

1. `Agrees` holds of an environment where no variable that is not exported hides an exported one
   (`agrees_iff_covered`), which is a condition on the flags of its entries.
2. `StackOp.change` is what an operation does to the flags (`flags_run`), and `Change.Harmless`
   tells when that keeps the condition (`covered_apply`).
3. `exported_iff`: the runs in which a child sees what the shell sees.
-/

namespace Seahaven.Shell

/-! ## Flags -/

/-- The scans show the same variable for a name, and a child gets it where it is exported. -/
structure ShellEnvironment.Agrees (env : ShellEnvironment) : Prop where
  exported : ∀ name v, env.iterExported name = some v ↔
    (env.get name).map Prod.snd = some v ∧ v.exported = true
  getUsingPolicy : ∀ name, env.getUsingPolicy name .anywhere = (env.get name).map Prod.snd
  getMut : ∀ name, (env.getMut name).map Prod.snd = env.get name
  iter : ∀ name, env.iter name = (env.get name).map Prod.snd

def ShellEnvironment.flags (env : ShellEnvironment) (name : List Char) : List (Option Bool) :=
  env.scopes.map fun s => (s.2 name).map (·.exported)

def Covered (l : List (Option Bool)) : Prop :=
  l.reduceOption.head? = some false → some true ∉ l

theorem reduceOption_flags (env : ShellEnvironment) (name : List Char) :
    (env.flags name).reduceOption = (env.entries name).map (·.exported) := by
  unfold ShellEnvironment.flags ShellEnvironment.entries ShellEnvironment.entriesIn
  rw [List.reduceOption, List.filterMap_map, List.map_filterMap]
  rfl

theorem find?_head?_iff {α : Type} {p : α → Bool} (l : List α) :
    (∀ x, l.find? p = some x ↔ l.head? = some x ∧ p x = true) ↔
      ((l.map p).head? = some false → true ∉ l.map p) := by
  cases l with
  | nil => simp
  | cons y l =>
    rw [List.map_cons, List.head?_cons]
    cases hy : p y with
    | true =>
      have hfalse : ¬ (some true = some false) := nofun
      rw [List.find?_cons, hy]
      refine iff_of_true (fun x => ?_) fun h => absurd h hfalse
      dsimp only
      exact ⟨fun h => ⟨h, Option.some_inj.1 h ▸ hy⟩, fun h => h.1⟩
    | false =>
      have hhead : ∀ x, ¬ (some y = some x ∧ p x = true) := by
        rintro x ⟨⟨⟩, hx⟩
        rw [hy] at hx
        cases hx
      rw [List.find?_cons, hy]
      simp only [hhead, iff_false, forall_const, List.head?_cons, List.mem_cons, reduceCtorEq,
        false_or, List.mem_map, not_exists, not_and]
      constructor
      · intro h x hx hpx
        obtain ⟨z, hz⟩ := Option.isSome_iff_exists.1 (List.find?_isSome.2 ⟨x, hx, hpx⟩)
        exact h z hz
      · intro h x hx
        exact h x (List.mem_of_find?_eq_some hx) (List.find?_some hx)

/-- **Children.** An environment agrees with what its children see where no variable that is not
exported hides an exported one. -/
theorem agrees_iff_covered (env : ShellEnvironment) :
    env.Agrees ↔ ∀ name, Covered (env.flags name) := by
  have hcovered : ∀ name, Covered (env.flags name) ↔
      ∀ v, env.iterExported name = some v ↔
        (env.get name).map Prod.snd = some v ∧ v.exported = true := by
    intro name
    have hmem : some true ∈ env.flags name ↔ true ∈ (env.flags name).reduceOption :=
      List.reduceOption_mem_iff.symm
    unfold Covered
    rw [hmem, reduceOption_flags, ← find?_head?_iff, env.iterExported_eq, env.get_eq]
  constructor
  · exact fun h name => (hcovered name).2 (h.exported name)
  · exact fun h => ⟨fun name => (hcovered name).1 (h name),
      fun name => (env.getUsingPolicy_eq name).trans (env.get_eq name).symm, env.getMut_eq,
      fun name => (env.iter_eq name).trans (env.get_eq name).symm⟩

/-! ## What an operation changes -/

/-- A change of the flags: none, a scope on top, one off the top, or a flag of one entry, which is
gone where there is no flag. -/
inductive Change
  | same
  | push
  | pop
  | write (i : Nat) (name : List Char) (flag : Option Bool)

def Change.apply (f : List Char → List (Option Bool)) : Change → List Char → List (Option Bool)
  | same, name => f name
  | push, name => none :: f name
  | pop, name => (f name).tail
  | write i n flag, name => if name = n then (f name).set i flag else f name

/-- A change that hides no exported variable behind one that is not exported. -/
def Change.Harmless (f : List Char → List (Option Bool)) : Change → Prop
  | same => True
  | push => True
  -- what the scope leaves visible is exported, or hides nothing exported
  | pop => ∀ name b rest, f name = some b :: rest → Covered rest
  | write i name flag =>
    match ((f name).take i).reduceOption.head?, flag with
    -- an exported variable is not put behind one that is not exported
    | some above, some true => above = true
    | some _, _ => True
    | none, some true => True
    -- the variable that is visible now is exported, or hides nothing exported
    | none, some false => some true ∉ (f name).drop (i + 1)
    | none, none => Covered ((f name).drop (i + 1))

def Change.Fits (f : List Char → List (Option Bool)) : Change → Prop
  | write i name _ => i < (f name).length
  | _ => True

theorem covered_none (l : List (Option Bool)) : Covered (none :: l) ↔ Covered l := by
  unfold Covered
  simp [List.reduceOption_cons_of_none]

variable {i : Nat}

theorem covered_write {l : List (Option Bool)} (h : Covered l) (hi : i < l.length)
    (flag : Option Bool) : Covered (l.set i flag) ↔
      match (l.take i).reduceOption.head?, flag with
      | some above, some true => above = true
      | some _, _ => True
      | none, some true => True
      | none, some false => some true ∉ l.drop (i + 1)
      | none, none => Covered (l.drop (i + 1)) := by
  have hset : l.set i flag = l.take i ++ flag :: l.drop (i + 1) := by
    rw [List.set_eq_take_append_cons_drop, if_pos hi]
  have hl : l = l.take i ++ l[i] :: l.drop (i + 1) := by
    rw [List.getElem_cons_drop, List.take_append_drop]
  have hmem : ∀ x, (some true ∈ l.take i ++ x :: l.drop (i + 1)) ↔
      some true ∈ l.take i ∨ some true = x ∨ some true ∈ l.drop (i + 1) := fun x => by
    rw [List.mem_append, List.mem_cons]
  have hcov : ((l.take i).reduceOption ++ (l[i] :: l.drop (i + 1)).reduceOption).head? =
      some false → ¬ (some true ∈ l.take i ∨ some true = l[i] ∨ some true ∈ l.drop (i + 1)) := by
    have h' := h
    rw [hl] at h'
    unfold Covered at h'
    rwa [hmem, List.reduceOption_append] at h'
  rw [hset]
  unfold Covered
  rw [hmem, List.reduceOption_append]
  cases ha : (l.take i).reduceOption with
  | cons above rest =>
    rw [ha] at hcov
    cases above with
    | true =>
      refine iff_of_true (fun h => nomatch h) ?_
      cases flag with
      | none => trivial
      | some b =>
        cases b with
        | true => rfl
        | false => trivial
    | false =>
      have hclear := not_or.1 (hcov rfl)
      have hbelow := (not_or.1 hclear.2).2
      cases flag with
      | none => exact iff_of_true (fun _ => by simp [hclear.1, hbelow]) trivial
      | some b =>
        cases b with
        | true => exact iff_of_false (fun h => h rfl (.inr (.inl rfl))) nofun
        | false => exact iff_of_true (fun _ => by simp [hclear.1, hbelow]) trivial
  | nil =>
    have habove : some true ∉ l.take i := by
      rw [← List.reduceOption_mem_iff, ha]
      exact List.not_mem_nil
    simp only [habove, false_or, List.nil_append]
    cases flag with
    | none => simp [List.reduceOption_cons_of_none]
    | some b =>
      cases b with
      | true => simp [List.reduceOption_cons_of_some]
      | false => simp [List.reduceOption_cons_of_some]

theorem covered_apply {f : List Char → List (Option Bool)} (h : ∀ name, Covered (f name))
    {c : Change} (hc : c.Fits f) : (∀ name, Covered (c.apply f name)) ↔ c.Harmless f := by
  cases c with
  | same => exact iff_of_true h trivial
  | push => exact iff_of_true (fun name => (covered_none _).2 (h name)) trivial
  | pop =>
    constructor
    · intro hall name b rest hname
      have hrest := hall name
      rwa [Change.apply, hname] at hrest
    · intro hharmless name
      rw [Change.apply]
      cases hname : f name with
      | nil => exact nofun
      | cons b rest =>
        cases b with
        | none =>
          have hcov := h name
          rw [hname] at hcov
          exact (covered_none _).1 hcov
        | some b => exact hharmless name b rest hname
  | write i n flag =>
    have hwrite := covered_write (h n) hc flag
    constructor
    · intro hall
      have hn := hall n
      rw [Change.apply, if_pos rfl] at hn
      exact hwrite.1 hn
    · intro hharmless name
      rw [Change.apply]
      split_ifs with hname
      · subst hname
        exact hwrite.2 hharmless
      · exact h name

/-! ## Operations -/

namespace ShellEnvironment

/-- What `add` changes: an entry of the first scope of the type, if there is one. -/
def adding (env : ShellEnvironment) (name : List Char) (v : ShellVariable)
    (target : EnvironmentScope) : Change :=
  match env.target target with
  | some i => .write i name (some (v.exported || env.exportVariablesOnModification))
  | none => .same

def changing {α : Type} (env : ShellEnvironment) (lookup : EnvironmentLookup) (name : List Char)
    (f : ShellVariable → Attempt ShellVariable α) (vacant : Change) : Change :=
  match env.find lookup name with
  | some (i, v) => .write i name (some (f v).2.exported)
  | none => vacant

def creating (env : ShellEnvironment) (name : List Char) (target : EnvironmentScope)
    (r : Attempt ShellVariable Unit) : Change :=
  match r with
  | (.ok _, v) => env.adding name v target
  | (.error _, _) => .same

/-- What `unset` changes: the entry that `get` finds is gone, or a placeholder. -/
def unsetting (env : ShellEnvironment) (name : List Char) : Change :=
  match env.find .anywhere name with
  | none => .same
  | some (i, v) =>
    if v.readonly then .same
    else if (env.scopes[i]?.any fun s => s.1 = .loc) ∧
        ((env.scopes.take (i + 1)).countP fun s => s.1 = .loc) = 1 then
      .write i name (some false)
    else .write i name none

end ShellEnvironment

section

variable [Casing]

/-- What an operation changes. -/
def EnvOp.change (env : ShellEnvironment) : EnvOp → Change
  | updateOrAdd name value updater lookup scope =>
    env.changing lookup name (env.update value updater)
      (env.creating name scope (env.update value updater ShellEnvironment.fresh))
  | updateOrAddArrayElement name index value updater lookup scope =>
    env.changing lookup name
      (fun v => ShellEnvironment.thenUpdate (v.assignAtIndex index value false) updater)
      (env.creating name scope (ShellEnvironment.thenUpdate
        (ShellEnvironment.fresh.assign (.array [(some index, value)]) false) updater))
  | unset name => env.unsetting name
  | unsetIndex name index => env.changing .anywhere name (·.unsetIndex index) .same
  | onVariable name lookup op => env.changing lookup name op.run .same

/-- What an operation of the stack changes. -/
def StackOp.change (env : ShellEnvironment) : StackOp → Change
  | pushScope _ => .push
  | popScope _ => .pop
  | add name var target => env.adding name var target
  | setExported name lookup exported =>
    env.changing lookup name (fun v => (Except.ok (), { v with exported }) ) .same
  | edit op => op.change env

end

variable {env : ShellEnvironment}

namespace ShellEnvironment

theorem length_flags (env : ShellEnvironment) (name : List Char) :
    (env.flags name).length = env.scopes.length := List.length_map _

theorem getElem?_flags (env : ShellEnvironment) (name : List Char) (i : Nat) :
    (env.flags name)[i]? = env.scopes[i]?.map fun s => (s.2 name).map (·.exported) :=
  List.getElem?_map ..

theorem flags_setAt (env : ShellEnvironment) (i : Nat) (name : List Char)
    (w : Option ShellVariable) :
    (env.setAt i name w).flags =
      (Change.write i name (w.map (·.exported))).apply env.flags := by
  funext m
  rw [Change.apply]
  refine List.ext_getElem? fun j => ?_
  have hentry : ((env.setAt i name w).flags m)[j]? =
      ((fun s => if i = j then (s.1, Function.update s.2 name w) else s) <$>
        env.scopes[j]?).map fun s => (s.2 m).map (·.exported) := by
    rw [getElem?_flags, setAt, List.getElem?_modify]
  rw [hentry]
  by_cases hm : m = name
  · subst hm
    rw [if_pos rfl, List.getElem?_set, length_flags, getElem?_flags]
    by_cases hj : i = j
    · subst hj
      rw [if_pos rfl]
      by_cases hi : i < env.scopes.length
      · simp [hi]
      · simp [hi]
    · rw [if_neg hj]
      cases env.scopes[j]? with
      | none => rfl
      | some s => simp [hj]
  · rw [if_neg hm, getElem?_flags]
    cases env.scopes[j]? with
    | none => rfl
    | some s => by_cases hj : i = j <;> simp [hj, Function.update_of_ne hm]

theorem fits_write (hi : i < env.scopes.length)
    (name : List Char) (flag : Option Bool) : (Change.write i name flag).Fits env.flags := by
  rw [Change.Fits, length_flags]
  exact hi

def Does (env env' : ShellEnvironment) (c : Change) : Prop :=
  env'.flags = c.apply env.flags ∧ c.Fits env.flags

theorem does_same (env : ShellEnvironment) : env.Does env .same := ⟨rfl, trivial⟩

theorem does_setAt (hi : i < env.scopes.length)
    (name : List Char) (w : Option ShellVariable) :
    env.Does (env.setAt i name w) (.write i name (w.map (·.exported))) :=
  ⟨env.flags_setAt i name w, fits_write hi name _⟩

theorem does_add (env : ShellEnvironment) (name : List Char) (v : ShellVariable)
    (target : EnvironmentScope) :
    env.Does (env.add name v target).2 (env.adding name v target) := by
  have hexported : (if env.exportVariablesOnModification then v.export else v).exported =
      (v.exported || env.exportVariablesOnModification) := by
    cases env.exportVariablesOnModification with
    | false => exact (Bool.or_false _).symm
    | true => exact (Bool.or_true _).symm
  unfold add adding
  cases h : env.target target with
  | none =>
    unfold ShellEnvironment.target at h
    rw [h]
    exact env.does_same
  | some i =>
    have hi := lt_of_target h
    unfold ShellEnvironment.target at h
    rw [h, ← hexported]
    exact does_setAt hi name (some _)

theorem does_changing {α : Type} {lookup : EnvironmentLookup}
    {name : List Char} (f : ShellVariable → Attempt ShellVariable α)
    {env' : ShellEnvironment} {vacant : Change}
    (hfound : ∀ i v, env.find lookup name = some (i, v) →
      env' = env.setAt i name (some (f v).2))
    (hvacant : env.find lookup name = none → env.Does env' vacant) :
    env.Does env' (env.changing lookup name f vacant) := by
  unfold changing
  cases h : env.find lookup name with
  | none => exact hvacant h
  | some r =>
    obtain ⟨i, v⟩ := r
    rw [hfound i v h]
    exact does_setAt (lt_of_varAt (varAt_of_find h)) name (some _)

theorem does_addNew (env : ShellEnvironment) (name : List Char) (target : EnvironmentScope)
    (r : Attempt ShellVariable Unit) :
    env.Does (env.addNew name target r).2 (env.creating name target r) := by
  obtain ⟨_ | _, v⟩ := r
  · exact env.does_same
  · exact env.does_add name v target

theorem does_unset (env : ShellEnvironment) (name : List Char) :
    env.Does (env.unset name).2 (env.unsetting name) := by
  unfold unset unsetting
  cases h : env.find .anywhere name with
  | none => exact env.does_same
  | some r =>
    obtain ⟨i, v⟩ := r
    have hi := lt_of_varAt (varAt_of_find h)
    dsimp only
    split_ifs with hro hlocal
    · exact env.does_same
    · exact does_setAt hi name (some fresh)
    · exact does_setAt hi name none

end ShellEnvironment

section

variable [Casing]

theorem EnvOp.does_run (env : ShellEnvironment) (op : EnvOp) :
    env.Does (op.run env).2 (op.change env) := by
  cases op with
  | updateOrAdd name value updater lookup scope =>
    refine ShellEnvironment.does_changing _ (fun i v h => ?_) fun h => ?_
    · rw [EnvOp.run, ShellEnvironment.updateOrAdd, h]
      rfl
    · rw [EnvOp.run, ShellEnvironment.updateOrAdd, h]
      exact env.does_addNew name scope _
  | updateOrAddArrayElement name index value updater lookup scope =>
    refine ShellEnvironment.does_changing _ (fun i v h => ?_) fun h => ?_
    · rw [EnvOp.run, ShellEnvironment.updateOrAddArrayElement, h]
      rfl
    · rw [EnvOp.run, ShellEnvironment.updateOrAddArrayElement, h]
      exact env.does_addNew name scope _
  | unset name => exact env.does_unset name
  | unsetIndex name index =>
    refine ShellEnvironment.does_changing _ (fun i v h => ?_) fun h => ?_
    · rw [EnvOp.run, ShellEnvironment.unsetIndex, h]
      rfl
    · rw [EnvOp.run, ShellEnvironment.unsetIndex, h]
      exact env.does_same
  | onVariable name lookup op =>
    refine ShellEnvironment.does_changing _ (fun i v h => ?_) fun h => ?_
    · rw [EnvOp.run, h]
      rfl
    · rw [EnvOp.run, h]
      exact env.does_same

theorem StackOp.does_run (env : ShellEnvironment) (op : StackOp) :
    env.Does (op.run env) (op.change env) := by
  cases op with
  | pushScope scopeType => exact ⟨rfl, trivial⟩
  | popScope expected =>
    refine ⟨?_, trivial⟩
    funext name
    rw [StackOp.run, StackOp.change, Change.apply, ShellEnvironment.popScope]
    unfold ShellEnvironment.flags
    cases h : env.scopes with
    | nil =>
      dsimp only
      rw [h]
      rfl
    | cons s scopes => rfl
  | add name var target => exact env.does_add name var target
  | setExported name lookup exported =>
    refine ShellEnvironment.does_changing _ (fun i v h => ?_) fun h => ?_
    · rw [StackOp.run, h]
    · rw [StackOp.run, h]
      exact env.does_same
  | edit op => exact op.does_run env

/-! ## Runs -/

def AgreesAlong : ShellEnvironment → List StackOp → Prop
  | env, [] => env.Agrees
  | env, op :: ops => env.Agrees ∧ AgreesAlong (op.run env) ops

/-- No operation of a run hides an exported variable behind one that is not exported, in the
environment that it meets. -/
def HarmlessAlong : ShellEnvironment → List StackOp → Prop
  | _, [] => True
  | env, op :: ops => (op.change env).Harmless env.flags ∧ HarmlessAlong (op.run env) ops

theorem agrees_run_iff (h : env.Agrees) (op : StackOp) :
    (op.run env).Agrees ↔ (op.change env).Harmless env.flags := by
  obtain ⟨hflags, hfits⟩ := op.does_run env
  rw [agrees_iff_covered, hflags]
  exact covered_apply ((agrees_iff_covered env).1 h) hfits

theorem agreesAlong_of_agrees (ops : List StackOp) :
    ∀ {env : ShellEnvironment}, env.Agrees → (AgreesAlong env ops ↔ HarmlessAlong env ops) := by
  induction ops with
  | nil => exact fun h => iff_of_true h trivial
  | cons op ops ih =>
    intro env h
    have hstep := agrees_run_iff h op
    have hhead : AgreesAlong (op.run env) ops → (op.run env).Agrees := by
      cases ops with
      | nil => exact id
      | cons op' ops' => exact And.left
    constructor
    · rintro ⟨-, hrest⟩
      have hnext := hhead hrest
      exact ⟨hstep.1 hnext, (ih hnext).1 hrest⟩
    · rintro ⟨hharmless, hrest⟩
      exact ⟨h, (ih (hstep.2 hharmless)).2 hrest⟩

omit [Casing] in
theorem agrees_new : ShellEnvironment.new.Agrees :=
  (agrees_iff_covered _).2 fun _ => nofun

/-- **Children.** All along a run from a new environment a child sees the exported ones of the
variables that the shell sees, exactly if no operation puts an exported variable behind one that is
not exported: by adding, unsetting or no longer exporting one above it, by exporting it, or by
removing the one that was exported above both. -/
theorem exported_iff (ops : List StackOp) :
    AgreesAlong .new ops ↔ HarmlessAlong .new ops := agreesAlong_of_agrees ops agrees_new

end

/-- `export x=a; f() { local x; }`: in the function, a child gets the `x` that the local hides. -/
theorem not_agreesAlong_local : ¬ @AgreesAlong asciiCasing .new
      [.add ['x'] (ShellVariable.new (.string ['a'])).export .global, .pushScope .loc,
        .add ['x'] (ShellVariable.new (.unset .untyped)) .loc] := by
  rintro ⟨-, -, -, h⟩
  have hchild := (h.exported ['x'] (ShellVariable.new (.string ['a'])).export).1 rfl
  cases hchild.1

end Seahaven.Shell
