import Mathlib.Data.Set.Card
import Seahaven.Shell.Scopes

/-!
# The entry count

An environment counts its entries by hand, for the capacity that its iterators reserve. The count
follows every operation but `pop_scope`, which drops the entries of a scope and leaves it as it is.

1. `live`: the entries of the maps on the stack.
2. `Effect`: what an operation does to the maps and to the count (`effect_run`).
3. `entryCount_dropped`: the count of a run, and `entryCount_iff`, the runs in which it is the
   number of entries.
-/

namespace Seahaven.Shell

/-! ## Entries -/

namespace ShellVariableMap

noncomputable def size (map : ShellVariableMap) : Nat := {m | (map m).isSome}.ncard

def IsFinite (map : ShellVariableMap) : Prop := {m | (map m).isSome}.Finite

def occupied (v : Option ShellVariable) : Nat := if v.isSome then 1 else 0

theorem size_empty : size (fun _ => none) = 0 := by
  have hempty : {m : List Char | ((fun _ => none : ShellVariableMap) m).isSome} = ∅ := by
    ext m
    simp
  rw [size, hempty, Set.ncard_empty]

variable {map : ShellVariableMap}

theorem size_eq (h : map.IsFinite) (name : List Char) :
    map.size = ({m | (map m).isSome} \ {name}).ncard + occupied (map name) := by
  unfold size occupied
  by_cases hname : name ∈ {m | (map m).isSome}
  · have hsome : (map name).isSome := hname
    rw [if_pos hsome, Set.ncard_sdiff_singleton_add_one hname h]
  · have hnone : ¬ (map name).isSome := hname
    rw [if_neg hnone, Set.sdiff_singleton_eq_self hname, Nat.add_zero]

theorem isFinite_update (h : map.IsFinite) (name : List Char)
    (w : Option ShellVariable) : IsFinite (Function.update map name w) := by
  refine (h.insert name).subset fun m hm => ?_
  by_cases hname : m = name
  · exact .inl hname
  · rw [Set.mem_ofPred_eq, Function.update_of_ne hname] at hm
    exact .inr hm

theorem size_update (h : map.IsFinite) (name : List Char)
    (w : Option ShellVariable) :
    size (Function.update map name w) + occupied (map name) = map.size + occupied w := by
  have hrest : {m | (Function.update map name w m).isSome} \ {name} =
      {m | (map m).isSome} \ {name} := by
    ext m
    simp only [Set.mem_sdiff, Set.mem_ofPred_eq, Set.mem_singleton_iff]
    refine and_congr_left fun hm => ?_
    rw [Function.update_of_ne hm]
  rw [size_eq h name, size_eq (isFinite_update h name w) name, hrest, Function.update_self]
  exact Nat.add_right_comm _ _ _

end ShellVariableMap

open ShellVariableMap

variable {env : ShellEnvironment}

namespace ShellEnvironment

noncomputable def live (env : ShellEnvironment) : Nat := (env.scopes.map fun s => s.2.size).sum

/-- The number of entries that `pop_scope` drops. -/
noncomputable def topSize (env : ShellEnvironment) : Nat :=
  (env.scopes.head?.map fun s => s.2.size).getD 0

/-- The maps of the stack are finite, and no entry goes without being counted. -/
structure Bounded (env : ShellEnvironment) : Prop where
  isFinite : ∀ s ∈ env.scopes, s.2.IsFinite
  live_le : env.live ≤ env.entryCount

theorem sum_modify (i : Nat) (name : List Char) (w : Option ShellVariable) :
    ∀ {scopes : List (EnvironmentScope × ShellVariableMap)}, (∀ s ∈ scopes, s.2.IsFinite) →
      (hi : i < scopes.length) →
      ((scopes.modify i fun s => (s.1, Function.update s.2 name w)).map fun s => s.2.size).sum +
          occupied (scopes[i].2 name) =
        (scopes.map fun s => s.2.size).sum + occupied w := by
  induction i with
  | zero =>
    intro scopes hfinite hi
    cases scopes with
    | nil => cases hi
    | cons s scopes =>
      have hsize := size_update (hfinite s List.mem_cons_self) name w
      rw [List.modify_zero_cons, List.map_cons, List.map_cons, List.sum_cons, List.sum_cons,
        List.getElem_cons_zero]
      dsimp only
      omega
  | succ i ih =>
    intro scopes hfinite hi
    cases scopes with
    | nil => cases hi
    | cons s scopes =>
      have hrest := ih (fun t ht => hfinite t (List.mem_cons_of_mem s ht))
        (Nat.lt_of_succ_lt_succ hi)
      rw [List.modify_succ_cons, List.map_cons, List.map_cons, List.sum_cons, List.sum_cons,
        List.getElem_cons_succ]
      omega

theorem live_setAt (h : ∀ s ∈ env.scopes, s.2.IsFinite) {i : Nat}
    (hi : i < env.scopes.length) (name : List Char) (w : Option ShellVariable) :
    (env.setAt i name w).live + occupied (env.varAt i name) = env.live + occupied w := by
  have hentry : env.varAt i name = env.scopes[i].2 name := by
    rw [varAt, List.getElem?_eq_getElem hi]
    rfl
  rw [hentry]
  exact sum_modify i name w h hi

theorem isFinite_setAt (h : ∀ s ∈ env.scopes, s.2.IsFinite) (i : Nat)
    (name : List Char) (w : Option ShellVariable) :
    ∀ s ∈ (env.setAt i name w).scopes, s.2.IsFinite := by
  intro s hs
  obtain ⟨j, hj⟩ := List.mem_iff_getElem?.1 hs
  unfold setAt at hj
  dsimp only at hj
  rw [List.getElem?_modify] at hj
  obtain ⟨t, ht, rfl⟩ := Option.map_eq_some_iff.1 hj
  have hbefore := h t (List.mem_of_getElem? ht)
  split_ifs with hij
  · exact isFinite_update hbefore name w
  · exact hbefore

/-! ## What an operation does -/

/-- What an operation does to the maps and to the count. -/
inductive Effect (env : ShellEnvironment) : ShellEnvironment → Prop
  | same : Effect env env
  | push (scopeType : EnvironmentScope) : Effect env (env.pushScope scopeType)
  | overwrite (i : Nat) (name : List Char) (v w : ShellVariable) (h : env.varAt i name = some v) :
    Effect env (env.setAt i name (some w))
  | insert (i : Nat) (name : List Char) (w : ShellVariable) (hi : i < env.scopes.length)
      (h : env.varAt i name = none) :
    Effect env { env.setAt i name (some w) with entryCount := env.entryCount + 1 }
  | remove (i : Nat) (name : List Char) (v : ShellVariable) (h : env.varAt i name = some v) :
    Effect env { env.setAt i name none with entryCount := env.entryCount - 1 }

theorem effect_add (env : ShellEnvironment) (name : List Char) (v : ShellVariable)
    (target : EnvironmentScope) : env.Effect (env.add name v target).2 := by
  unfold add
  dsimp only
  cases h : env.scopes.findIdx? fun s => s.1 = target with
  | none => exact .same
  | some i =>
    have hi : i < env.scopes.length := lt_of_target h
    dsimp only
    cases hv : env.varAt i name with
    | none => exact .insert i name _ hi hv
    | some u => exact .overwrite i name u _ hv

theorem effect_addNew (env : ShellEnvironment) (name : List Char) (target : EnvironmentScope)
    (r : Attempt ShellVariable Unit) : env.Effect (env.addNew name target r).2 := by
  obtain ⟨_ | _, v⟩ := r
  · exact .same
  · exact env.effect_add name v target

theorem effect_unset (env : ShellEnvironment) (name : List Char) :
    env.Effect (env.unset name).2 := by
  unfold unset
  cases h : env.find .anywhere name with
  | none => exact .same
  | some r =>
    obtain ⟨i, v⟩ := r
    have hv := varAt_of_find h
    dsimp only
    split_ifs with hro hlocal
    · exact .same
    · exact .overwrite i name v fresh hv
    · exact .remove i name v hv

theorem effect_applyAt {α : Type} {lookup : EnvironmentLookup}
    {name : List Char} {i : Nat} {v : ShellVariable} (h : env.find lookup name = some (i, v))
    (r : Attempt ShellVariable α) : env.Effect (env.applyAt i name r).2 :=
  .overwrite i name v r.2 (varAt_of_find h)

end ShellEnvironment

section

variable [Casing]

theorem EnvOp.effect_run (env : ShellEnvironment) (op : EnvOp) : env.Effect (op.run env).2 := by
  cases op with
  | updateOrAdd name value updater lookup scope =>
    rw [EnvOp.run, ShellEnvironment.updateOrAdd]
    cases h : env.find lookup name with
    | none => exact env.effect_addNew name scope _
    | some r => exact ShellEnvironment.effect_applyAt h _
  | updateOrAddArrayElement name index value updater lookup scope =>
    rw [EnvOp.run, ShellEnvironment.updateOrAddArrayElement]
    cases h : env.find lookup name with
    | none => exact env.effect_addNew name scope _
    | some r => exact ShellEnvironment.effect_applyAt h _
  | unset name => exact env.effect_unset name
  | unsetIndex name index =>
    rw [EnvOp.run, ShellEnvironment.unsetIndex]
    cases h : env.find .anywhere name with
    | none => exact .same
    | some r => exact ShellEnvironment.effect_applyAt h (r.2.unsetIndex index)
  | onVariable name lookup op =>
    rw [EnvOp.run]
    cases h : env.find lookup name with
    | none => exact .same
    | some r => exact ShellEnvironment.effect_applyAt h (op.run r.2)

noncomputable def StackOp.dropped (env : ShellEnvironment) : StackOp → Nat
  | popScope _ => env.topSize
  | _ => 0

noncomputable def droppedBy : ShellEnvironment → List StackOp → Nat
  | _, [] => 0
  | env, op :: ops => op.dropped env + droppedBy (op.run env) ops

omit [Casing] in
theorem ShellEnvironment.Effect.bounded {env' : ShellEnvironment} (h : env.Effect env')
    (hb : env.Bounded) :
    env'.Bounded ∧ env'.entryCount + env.live = env.entryCount + env'.live := by
  obtain ⟨hfinite, hle⟩ := hb
  cases h with
  | same => exact ⟨⟨hfinite, hle⟩, rfl⟩
  | push scopeType =>
    have hlive : (env.pushScope scopeType).live = env.live := by
      rw [live, pushScope, List.map_cons, List.sum_cons, size_empty, Nat.zero_add]
      rfl
    refine ⟨⟨?_, hlive.trans_le hle⟩, by rw [hlive]; rfl⟩
    intro s hs
    rcases List.mem_cons.1 hs with rfl | hs
    · exact Set.finite_empty.subset fun m hm => nomatch hm
    · exact hfinite s hs
  | overwrite i name v w h =>
    have hlive := live_setAt hfinite (lt_of_varAt h) name (some w)
    rw [h] at hlive
    have hsame : (env.setAt i name (some w)).live = env.live := Nat.add_right_cancel hlive
    exact ⟨⟨isFinite_setAt hfinite i name _, hsame.trans_le hle⟩, by rw [hsame]; rfl⟩
  | insert i name w hi h =>
    have hlive := live_setAt hfinite hi name (some w)
    rw [h] at hlive
    have hmore : (env.setAt i name (some w)).live = env.live + 1 := hlive
    refine ⟨⟨isFinite_setAt hfinite i name _, ?_⟩, ?_⟩
    · change (env.setAt i name (some w)).live ≤ env.entryCount + 1
      omega
    · change env.entryCount + 1 + env.live = env.entryCount + (env.setAt i name (some w)).live
      omega
  | remove i name v h =>
    have hlive := live_setAt hfinite (lt_of_varAt h) name none
    rw [h] at hlive
    have hless : (env.setAt i name none).live + 1 = env.live := hlive
    refine ⟨⟨isFinite_setAt hfinite i name _, ?_⟩, ?_⟩
    · change (env.setAt i name none).live ≤ env.entryCount - 1
      omega
    · change env.entryCount - 1 + env.live = env.entryCount + (env.setAt i name none).live
      omega

theorem StackOp.bounded_run (hb : env.Bounded) (op : StackOp) :
    (op.run env).Bounded ∧
      (op.run env).entryCount + env.live =
        env.entryCount + (op.run env).live + op.dropped env := by
  cases op with
  | popScope expected =>
    rw [StackOp.run, StackOp.dropped, ShellEnvironment.popScope, ShellEnvironment.topSize]
    obtain ⟨hfinite, hle⟩ := hb
    cases hscopes : env.scopes with
    | nil => exact ⟨⟨hfinite, hle⟩, rfl⟩
    | cons s scopes =>
      have hlive : env.live = s.2.size + (scopes.map fun s => s.2.size).sum := by
        rw [ShellEnvironment.live, hscopes, List.map_cons, List.sum_cons]
      rw [hscopes] at hfinite
      refine ⟨⟨fun t ht => hfinite t (List.mem_cons_of_mem s ht), ?_⟩, ?_⟩
      · change (scopes.map fun s => s.2.size).sum ≤ env.entryCount
        omega
      · change env.entryCount + env.live =
          env.entryCount + (scopes.map fun s => s.2.size).sum + s.2.size
        omega
  | pushScope scopeType => exact (ShellEnvironment.Effect.push scopeType).bounded hb
  | add name var target => exact (env.effect_add name var target).bounded hb
  | setExported name lookup exported =>
    rw [StackOp.run]
    cases h : env.find lookup name with
    | none => exact ⟨hb, rfl⟩
    | some r => exact (ShellEnvironment.Effect.overwrite r.1 name r.2 _
        (ShellEnvironment.varAt_of_find h)).bounded hb
  | edit op => exact (op.effect_run env).bounded hb

theorem entryCount_runStack (ops : List StackOp) :
    ∀ {env : ShellEnvironment}, env.Bounded →
      (runStack env ops).entryCount + env.live =
        env.entryCount + (runStack env ops).live + droppedBy env ops := by
  induction ops with
  | nil => exact fun _ => rfl
  | cons op ops ih =>
    intro env hb
    obtain ⟨hb', hstep⟩ := op.bounded_run hb
    have hrun : runStack env (op :: ops) = runStack (op.run env) ops := rfl
    have hrest := ih hb'
    rw [hrun, droppedBy]
    omega

/-! ## Runs -/

/-- The count is the number of entries, and the iterators reserve no more. -/
structure ShellEnvironment.Counts (env : ShellEnvironment) : Prop where
  entryCount : env.entryCount = env.live
  iterCapacity : env.iterCapacity ≤ env.live

def CountsAlong : ShellEnvironment → List StackOp → Prop
  | env, [] => env.Counts
  | env, op :: ops => env.Counts ∧ CountsAlong (op.run env) ops

def PopsEmpty : ShellEnvironment → List StackOp → Prop
  | _, [] => True
  | env, op :: ops =>
    (∀ expected, op = .popScope expected → ∀ s ∈ env.scopes.head?, ∀ name, s.2 name = none) ∧
      PopsEmpty (op.run env) ops

omit [Casing] in
theorem counts_iff (env : ShellEnvironment) : env.Counts ↔ env.entryCount = env.live :=
  ⟨fun h => h.entryCount, fun h => ⟨h, h.le⟩⟩

omit [Casing] in
theorem dropped_eq_zero_iff (hb : env.Bounded) (op : StackOp) :
    op.dropped env = 0 ↔
      ∀ expected, op = .popScope expected → ∀ s ∈ env.scopes.head?, ∀ name, s.2 name = none := by
  cases op with
  | popScope expected =>
    rw [StackOp.dropped, ShellEnvironment.topSize]
    cases hscopes : env.scopes with
    | nil => exact iff_of_true rfl fun _ _ s hs => nomatch hs
    | cons s scopes =>
      have hfinite : s.2.IsFinite := hb.isFinite s (hscopes ▸ List.mem_cons_self)
      have hempty : s.2.size = 0 ↔ ∀ name, s.2 name = none := by
        rw [size, Set.ncard_eq_zero hfinite, Set.eq_empty_iff_forall_notMem]
        refine forall_congr' fun name => ?_
        rw [Set.mem_ofPred_eq, Option.not_isSome_iff_eq_none]
      refine hempty.trans ⟨fun h _ _ t ht => ?_, fun h => h expected rfl s rfl⟩
      cases ht
      exact h
  | pushScope scopeType => exact iff_of_true rfl nofun
  | add name var target => exact iff_of_true rfl nofun
  | setExported name lookup exported => exact iff_of_true rfl nofun
  | edit op => exact iff_of_true rfl nofun

theorem countsAlong_of_counts (ops : List StackOp) :
    ∀ {env : ShellEnvironment}, env.Bounded → env.Counts →
      (CountsAlong env ops ↔ PopsEmpty env ops) := by
  induction ops with
  | nil => exact fun _ h => iff_of_true h trivial
  | cons op ops ih =>
    intro env hb h
    obtain ⟨hb', hstep⟩ := op.bounded_run hb
    have hcount := h.entryCount
    have hnext : (op.run env).Counts ↔ op.dropped env = 0 := by
      rw [counts_iff]
      omega
    have hhead : CountsAlong (op.run env) ops → (op.run env).Counts := by
      cases ops with
      | nil => exact id
      | cons op' ops' => exact And.left
    rw [dropped_eq_zero_iff hb op] at hnext
    constructor
    · rintro ⟨-, hrest⟩
      exact ⟨hnext.1 (hhead hrest), (ih hb' (hhead hrest)).1 hrest⟩
    · rintro ⟨hempty, hrest⟩
      exact ⟨h, (ih hb' (hnext.2 hempty)).2 hrest⟩

omit [Casing] in
theorem live_new : ShellEnvironment.new.live = 0 := by
  rw [ShellEnvironment.live, ShellEnvironment.new, List.map_singleton, List.sum_singleton,
    size_empty]

omit [Casing] in
theorem bounded_new : ShellEnvironment.new.Bounded := by
  refine ⟨fun s hs => ?_, live_new.le⟩
  cases List.mem_singleton.1 hs
  exact Set.finite_empty.subset fun m hm => nomatch hm

/-- **What is counted.** After a run from a new environment the count is the number of entries on the
stack and of those that scopes were popped with. -/
theorem entryCount_dropped (ops : List StackOp) : (runStack .new ops).entryCount =
    (runStack .new ops).live + droppedBy .new ops := by
  have hrun := entryCount_runStack ops bounded_new
  rw [live_new] at hrun
  exact hrun.trans (by rw [ShellEnvironment.new, Nat.zero_add])

/-- **Counts.** All along a run from a new environment the count is the number of entries on the
stack, and bounds what the iterators reserve, exactly if no scope with entries is popped. -/
theorem entryCount_iff (ops : List StackOp) :
    CountsAlong .new ops ↔ PopsEmpty .new ops :=
  countsAlong_of_counts ops bounded_new ((counts_iff _).2 live_new.symm)

end

/-- A call with one local leaves an entry in the count that is on no scope. -/
theorem not_countsAlong_call : ¬ @CountsAlong asciiCasing .new
      [.pushScope .loc, .add ['x'] (ShellVariable.new (.string ['a'])) .loc, .popScope .loc] := by
  rintro ⟨-, -, -, h⟩
  have hcount := h.entryCount
  have hlive := live_new
  exact absurd (hcount.trans hlive) (by decide)

end Seahaven.Shell
