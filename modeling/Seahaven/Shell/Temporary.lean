import Seahaven.Shell.Assignment

/-!
# Assignments before a command

An assignment before a command is to be a temporary plain assignment: the command finds, exported,
what the assignment would have stored alone, and nothing is left of it behind the command.

1. `ShellEnvironment.getMut_eq_some`: what a name stands for.
2. `Temporary`: what is claimed, for a list of assignments and a command.
3. `During`: what holds between the environment in which the assignments stand alone and the one in
   which they stand before a command.
4. `temporary_of_harmless`: the claim, if every assignment is `Harmless` where it is made.
-/

namespace Seahaven.Shell

/-! ## What a name stands for -/

variable {name : List Char} {i : Nat} {scope : EnvironmentScope} {v : ShellVariable}

namespace ShellEnvironment

theorem get_eq_getMut (env : ShellEnvironment) (name : List Char) :
    env.get name = (env.getMut name).map Prod.snd := by
  unfold get getMut
  induction env.scopes with
  | nil => rfl
  | cons s scopes ih =>
    unfold getIn getMutIn
    split
    · rfl
    · rw [ih, Option.map_map]
      rfl

theorem getMutIn_congr (name : List Char) :
    ∀ {scopes scopes' : List (EnvironmentScope × ShellVariableMap)},
      scopes.map Prod.fst = scopes'.map Prod.fst →
      (∀ i : Nat, (scopes[i]?.bind fun s => s.2 name) = scopes'[i]?.bind fun s => s.2 name) →
      getMutIn name scopes = getMutIn name scopes' := by
  intro scopes
  induction scopes with
  | nil =>
    intro scopes' htypes _
    rw [List.map_eq_nil_iff.1 htypes.symm]
  | cons s scopes ih =>
    intro scopes' htypes hvars
    cases scopes' with
    | nil => cases htypes
    | cons s' scopes' =>
      obtain ⟨hscope, hothers⟩ := List.cons.inj htypes
      have hvar : s.2 name = s'.2 name := hvars 0
      obtain ⟨scope, map⟩ := s
      obtain ⟨scope', map'⟩ := s'
      dsimp only at hscope hvar
      unfold getMutIn
      rw [hscope, hvar, ih hothers fun i => hvars (i + 1)]

theorem getMut_congr {env env' : ShellEnvironment}
    (htypes : env.scopes.map Prod.fst = env'.scopes.map Prod.fst)
    (hvars : ∀ i, env.varAt i name = env'.varAt i name) : env.getMut name = env'.getMut name :=
  getMutIn_congr name htypes hvars

def First (env : ShellEnvironment) (name : List Char) (i : Nat) : Prop :=
  ∀ j < i, env.varAt j name = none

theorem getMutIn_eq_some (name : List Char) :
    ∀ {scopes : List (EnvironmentScope × ShellVariableMap)} {i : Nat} {scope : EnvironmentScope}
      {v : ShellVariable}, getMutIn name scopes = some (i, scope, v) ↔
        (scopes.map Prod.fst)[i]? = some scope ∧
        (scopes[i]?.bind fun s => s.2 name) = some v ∧
        ∀ j < i, (scopes[j]?.bind fun s => s.2 name) = none := by
  intro scopes
  induction scopes with
  | nil =>
    intro i scope v
    exact iff_of_false nofun fun h => nomatch h.1
  | cons s scopes ih =>
    obtain ⟨scope', map⟩ := s
    intro i scope v
    unfold getMutIn
    cases hv : map name with
    | some w =>
      dsimp only
      constructor
      · rintro ⟨⟩
        exact ⟨rfl, hv, fun j hj => absurd hj (Nat.not_lt_zero j)⟩
      · rintro ⟨hscope, hvar, hfirst⟩
        cases i with
        | zero =>
          cases hscope
          have hvar : map name = some v := hvar
          rw [hv] at hvar
          cases hvar
          rfl
        | succ i =>
          have hnone : map name = none := hfirst 0 (Nat.succ_pos i)
          rw [hv] at hnone
          cases hnone
    | none =>
      dsimp only
      rw [Option.map_eq_some_iff]
      constructor
      · rintro ⟨⟨j, r⟩, hr, heq⟩
        cases heq
        obtain ⟨hscope, hvar, hfirst⟩ := ih.1 hr
        refine ⟨hscope, hvar, fun k hk => ?_⟩
        cases k with
        | zero => exact hv
        | succ k => exact hfirst k (Nat.lt_of_succ_lt_succ hk)
      · rintro ⟨hscope, hvar, hfirst⟩
        cases i with
        | zero =>
          have hvar : map name = some v := hvar
          rw [hv] at hvar
          cases hvar
        | succ i =>
          exact ⟨(i, scope, v), ih.2 ⟨hscope, hvar, fun j hj => hfirst (j + 1)
            (Nat.succ_lt_succ hj)⟩, rfl⟩

theorem getMut_eq_some {env : ShellEnvironment} :
    env.getMut name = some (i, scope, v) ↔ (env.scopes.map Prod.fst)[i]? = some scope ∧
      env.varAt i name = some v ∧ env.First name i := getMutIn_eq_some name

theorem getMutIn_eq_none (name : List Char) :
    ∀ {scopes : List (EnvironmentScope × ShellVariableMap)}, getMutIn name scopes = none →
      ∀ i : Nat, (scopes[i]?.bind fun s => s.2 name) = none := by
  intro scopes
  induction scopes with
  | nil => exact fun _ _ => rfl
  | cons s scopes ih =>
    obtain ⟨scope, map⟩ := s
    intro h i
    unfold getMutIn at h
    cases hv : map name with
    | some w =>
      rw [hv] at h
      cases h
    | none =>
      rw [hv] at h
      cases i with
      | zero => exact hv
      | succ i => exact ih (Option.map_eq_none_iff.1 h) i

theorem getMut_eq_none {env : ShellEnvironment}
    (h : env.getMut name = none) : ∀ i, env.varAt i name = none := getMutIn_eq_none name h

theorem types_setAt (env : ShellEnvironment) (i : Nat) (name : List Char)
    (v : Option ShellVariable) :
    (env.setAt i name v).scopes.map Prod.fst = env.scopes.map Prod.fst := by
  unfold setAt
  dsimp only
  refine List.ext_getElem? fun j => ?_
  rw [List.getElem?_map, List.getElem?_map, List.getElem?_modify]
  cases env.scopes[j]? with
  | none => rfl
  | some s =>
    by_cases hj : i = j
    · simp [hj]
    · simp [hj]

theorem getMut_setAt_self {env : ShellEnvironment}
    (hscope : (env.scopes.map Prod.fst)[i]? = some scope)
    (hfirst : env.First name i) (v : ShellVariable) :
    (env.setAt i name (some v)).getMut name = some (i, scope, v) := by
  have hi : i < env.scopes.length := by
    have h := (List.getElem?_eq_some_iff.1 hscope).1
    rwa [List.length_map] at h
  refine getMut_eq_some.2 ⟨?_, varAt_setAt_self env name _ hi, fun j hj => ?_⟩
  · rw [types_setAt]
    exact hscope
  · rw [varAt_setAt_of_ne env _ fun h => absurd h.1 (Nat.ne_of_lt hj)]
    exact hfirst j hj

theorem getMut_setAt_of_ne {env : ShellEnvironment} {m : List Char} (h : m ≠ name) (i : Nat)
    (v : Option ShellVariable) : (env.setAt i name v).getMut m = env.getMut m :=
  getMut_congr (types_setAt env i name v) fun _ => varAt_setAt_of_ne env v fun hj => h hj.2

end ShellEnvironment

/-! ## The claim -/

/-- The scopes are the same, and so is every variable of the names, visible or not. -/
structure Spares (names : List (List Char)) (env env' : ShellEnvironment) : Prop where
  types : env'.scopes.map Prod.fst = env.scopes.map Prod.fst
  vars : ∀ name ∈ names, ∀ i, env'.varAt i name = env.varAt i name

def Refused (r : Attempt ShellEnvironment Unit) : Prop := ∃ fault, r.1 = .error fault

section

variable [Casing] {W : Type}

def assignmentsAlone (x : WordExpander W) (exportAll : Bool) (assignments : List (Assignment W))
    (env : ShellEnvironment) : Attempt ShellEnvironment Unit :=
  assignEach (assignAlone x exportAll) assignments env

/-- **Temporary.** The assignments before a command are temporary plain assignments: they are
refused where the plain ones are, and for a read-only name, the command finds their values exported,
and what the names stood for is as it was. -/
structure Temporary (x : WordExpander W) (exportAll : Bool) (assignments : List (Assignment W))
    (command : ShellEnvironment → ShellEnvironment) (env : ShellEnvironment) : Prop where
  refused : Refused (commandEnvironment x exportAll assignments env) ↔
    Refused (assignmentsAlone x exportAll assignments env)
  readonly : ∀ a ∈ assignments, ∀ scope v, env.get a.name = some (scope, v) → v.readonly = true →
    Refused (commandEnvironment x exportAll assignments env) ∧
      Refused (assignmentsAlone x exportAll assignments env)
  seen : ¬Refused (commandEnvironment x exportAll assignments env) → ∀ a ∈ assignments, ∃ w,
    (commandEnvironment x exportAll assignments env).2.get a.name = some (.command, w) ∧
      w.exported = true ∧
      ((assignmentsAlone x exportAll assignments env).2.get a.name).map (·.2.value) = some w.value
  restored : ∀ a ∈ assignments, ∀ i,
    (executeCommand x exportAll assignments command env).2.varAt i a.name = env.varAt i a.name

/-! ## The condition -/

/-- An environment and one of a command: they are the same but for some names, and these stand for
the same values. -/
structure Shadows (names : List (List Char)) (env env' : ShellEnvironment) : Prop where
  types : env'.scopes.map Prod.fst = .command :: env.scopes.map Prod.fst
  flag : env'.exportVariablesOnModification = env.exportVariablesOnModification
  others : ∀ name ∉ names, env'.varAt 0 name = none ∧
    ∀ i, env'.varAt (i + 1) name = env.varAt i name
  values : ∀ name ∈ names, (env'.get name).map (·.2.value) = (env.get name).map (·.2.value)

/-- The words of an assignment look at nothing of the names but their values, and do not change
them. -/
def WordExpander.Steady (x : WordExpander W) (names : List (List Char)) (a : Assignment W)
    (env : ShellEnvironment) : Prop :=
  Spares names env (x.expand a env).2 ∧ ∀ env', Shadows names env env' →
    (x.expand a env').1 = (x.expand a env).1 ∧ Spares names env' (x.expand a env').2 ∧
      Shadows names (x.expand a env).2 (x.expand a env').2

/-- Whether an assignment that stands alone does what it does before a command: to a name that was
not assigned before, it stores what it stores in a new variable. -/
structure Harmless (x : WordExpander W) (names assigned : List (List Char)) (a : Assignment W)
    (env : ShellEnvironment) : Prop where
  steady : x.Steady names a env
  stores : ∀ e env', x.expand a env = (.ok e, env') →
    match env'.get a.name with
    | none => .global ∈ env'.scopes.map Prod.fst
    | some (scope, v) =>
      if a.name ∈ assigned then IsPlain v else scope ≠ .command ∧ StoresAsNew e a.append v

/-- Every assignment is harmless where it is made. -/
def HarmlessThroughout (x : WordExpander W) (exportAll : Bool) (names : List (List Char)) :
    List (List Char) → List (Assignment W) → ShellEnvironment → Prop
  | _, [], _ => True
  | assigned, a :: assignments, env => Harmless x names assigned a env ∧
    ∀ env', assignAlone x exportAll a env = (.ok (), env') →
      HarmlessThroughout x exportAll names (a.name :: assigned) assignments env'

/-! ## Two environments side by side -/

/-- What is left of an environment below the scope of the command. -/
structure Below (names : List (List Char)) (env₀ env' : ShellEnvironment) : Prop where
  types : env'.scopes.map Prod.fst = .command :: env₀.scopes.map Prod.fst
  vars : ∀ name ∈ names, ∀ i, env'.varAt (i + 1) name = env₀.varAt i name

/-- The environment of the assignments alone and the one of the command, once some names have been
assigned. -/
structure During (names assigned : List (List Char)) (env₀ env env' : ShellEnvironment) :
    Prop where
  shadows : Shadows names env env'
  below : Below names env₀ env'
  pending : ∀ name ∈ names, name ∉ assigned → env'.varAt 0 name = none ∧
    ∀ i, env.varAt i name = env₀.varAt i name
  done : ∀ name ∈ assigned, ∃ w, env'.varAt 0 name = some w ∧ w.exported = true ∧ IsPlain w

namespace ShellEnvironment

omit [Casing] in
theorem getMut_of_below {env env' : ShellEnvironment}
    (htypes : env'.scopes.map Prod.fst = scope :: env.scopes.map Prod.fst)
    (htop : env'.varAt 0 name = none) (hvars : ∀ i, env'.varAt (i + 1) name = env.varAt i name) :
    env'.getMut name = (env.getMut name).map fun r => (r.1 + 1, r.2) := by
  obtain ⟨scopes', flag, count⟩ := env'
  cases scopes' with
  | nil => cases htypes
  | cons s scopes' =>
    obtain ⟨hscope, hothers⟩ := List.cons.inj htypes
    obtain ⟨scope', map⟩ := s
    have hnone : map name = none := htop
    have hbelow : getMutIn name scopes' = env.getMut name := getMutIn_congr name hothers hvars
    change getMutIn name ((scope', map) :: scopes') = _
    rw [getMutIn, hnone, hbelow]

omit [Casing] in
theorem getMut_of_top {env : ShellEnvironment}
    {types : List EnvironmentScope}
    (htypes : env.scopes.map Prod.fst = scope :: types) (htop : env.varAt 0 name = some v) :
    env.getMut name = some (0, scope, v) := by
  refine getMut_eq_some.2 ⟨?_, htop, fun j hj => absurd hj (Nat.not_lt_zero j)⟩
  rw [htypes]
  rfl

end ShellEnvironment

namespace During

variable {names assigned : List (List Char)} {env₀ env env' : ShellEnvironment}

omit [Casing] in
theorem types (h : During names assigned env₀ env env') :
    env.scopes.map Prod.fst = env₀.scopes.map Prod.fst :=
  (List.cons.inj (h.shadows.types.symm.trans h.below.types)).2

omit [Casing] in
theorem get_pending (h : During names assigned env₀ env env')
    (hname : name ∈ names) (hpending : name ∉ assigned) : env.getMut name = env₀.getMut name :=
  ShellEnvironment.getMut_congr h.types (h.pending name hname hpending).2

omit [Casing] in
theorem get_pending' (h : During names assigned env₀ env env')
    (hname : name ∈ names) (hpending : name ∉ assigned) :
    env'.getMut name = (env.getMut name).map fun r => (r.1 + 1, r.2) := by
  obtain ⟨htop, hvars⟩ := h.pending name hname hpending
  refine ShellEnvironment.getMut_of_below h.shadows.types htop fun i => ?_
  rw [hvars i, h.below.vars name hname i]

omit [Casing] in
theorem expanded (h : During names assigned env₀ env env')
    (hassigned : ∀ name ∈ assigned, name ∈ names) {env₁ env₁' : ShellEnvironment}
    (hspares : Spares names env env₁) (hspares' : Spares names env' env₁')
    (hshadows : Shadows names env₁ env₁') : During names assigned env₀ env₁ env₁' where
  shadows := hshadows
  below := by
    refine ⟨hspares'.types.trans h.below.types, fun name hname i => ?_⟩
    rw [hspares'.vars name hname, h.below.vars name hname]
  pending := by
    intro name hname hpending
    obtain ⟨htop, hvars⟩ := h.pending name hname hpending
    refine ⟨?_, fun i => ?_⟩
    · rw [hspares'.vars name hname, htop]
    · rw [hspares.vars name hname, hvars]
  done := by
    intro name hname
    obtain ⟨w, htop, hw⟩ := h.done name hname
    refine ⟨w, ?_, hw⟩
    rw [hspares'.vars name (hassigned name hname), htop]

omit [Casing] in
theorem assign (h : During names assigned env₀ env env') {name : List Char} {i : Nat}
    {scope : EnvironmentScope} (hname : name ∈ names)
    (hscope : (env.scopes.map Prod.fst)[i]? = some scope) (hfirst : env.First name i)
    {v w : ShellVariable} (hexported : w.exported = true) (hplain : IsPlain w)
    (hvalue : v.value = w.value) :
    During names (name :: assigned) env₀ (env.setAt i name (some v))
      (env'.setAt 0 name (some w)) := by
  have hlength : 0 < env'.scopes.length := by
    have hlen := congrArg List.length h.shadows.types
    rw [List.length_map, List.length_cons] at hlen
    omega
  have htop : (env'.setAt 0 name (some w)).varAt 0 name = some w :=
    ShellEnvironment.varAt_setAt_self env' name _ hlength
  have hbelow : ∀ m j, (env'.setAt 0 name (some w)).varAt (j + 1) m = env'.varAt (j + 1) m :=
    fun m j => ShellEnvironment.varAt_setAt_of_ne env' _ fun hj => absurd hj.1 (Nat.succ_ne_zero j)
  have hothers : ∀ m j, m ≠ name → (env'.setAt 0 name (some w)).varAt j m = env'.varAt j m :=
    fun m j hm => ShellEnvironment.varAt_setAt_of_ne env' _ fun hj => hm hj.2
  have hothers' : ∀ m j, m ≠ name → (env.setAt i name (some v)).varAt j m = env.varAt j m :=
    fun m j hm => ShellEnvironment.varAt_setAt_of_ne env _ fun hj => hm hj.2
  refine ⟨⟨?_, h.shadows.flag, ?_, ?_⟩, ⟨?_, ?_⟩, ?_, ?_⟩
  · rw [ShellEnvironment.types_setAt, ShellEnvironment.types_setAt]
    exact h.shadows.types
  · intro m hm
    have hne : m ≠ name := fun heq => hm (heq ▸ hname)
    obtain ⟨hnone, hvars⟩ := h.shadows.others m hm
    refine ⟨?_, fun j => ?_⟩
    · rw [hothers m 0 hne, hnone]
    · rw [hothers m _ hne, hothers' m j hne, hvars j]
  · intro m hm
    rw [ShellEnvironment.get_eq_getMut, ShellEnvironment.get_eq_getMut]
    by_cases hne : m = name
    · subst hne
      rw [ShellEnvironment.getMut_setAt_self hscope hfirst,
        ShellEnvironment.getMut_of_top ((ShellEnvironment.types_setAt env' 0 m _).trans
          h.shadows.types) htop]
      exact congrArg some hvalue.symm
    · rw [ShellEnvironment.getMut_setAt_of_ne hne, ShellEnvironment.getMut_setAt_of_ne hne,
        ← ShellEnvironment.get_eq_getMut, ← ShellEnvironment.get_eq_getMut]
      exact h.shadows.values m hm
  · rw [ShellEnvironment.types_setAt]
    exact h.below.types
  · intro m hm j
    rw [hbelow m j]
    exact h.below.vars m hm j
  · intro m hm hpending
    obtain ⟨hne, hpending⟩ := not_or.1 (mt List.mem_cons.2 hpending)
    obtain ⟨hnone, hvars⟩ := h.pending m hm hpending
    refine ⟨?_, fun j => ?_⟩
    · rw [hothers m 0 hne, hnone]
    · rw [hothers' m j hne, hvars j]
  · intro m hm
    by_cases hne : m = name
    · exact ⟨w, hne ▸ htop, hexported, hplain⟩
    · obtain ⟨u, hu, hrest⟩ := h.done m ((List.mem_cons.1 hm).resolve_left hne)
      exact ⟨u, (hothers m 0 hne).trans hu, hrest⟩

end During

variable {e : Expanded} {value : ShellValue}

omit [Casing] in
theorem createVariable_ok {env : ShellEnvironment}
    (hnew : newValue e = .ok value)
    (hscope : scope ∈ env.scopes.map Prod.fst) (name : List Char) (exported exportAll : Bool) :
    ∃ i v count, createVariable env name e exported exportAll scope =
        (.ok (), { env.setAt i name (some v) with entryCount := count }) ∧
      (env.scopes.map Prod.fst)[i]? = some scope ∧
      (∀ j < i, (env.scopes.map Prod.fst)[j]? ≠ some scope) ∧
      v.value = value ∧ IsPlain v ∧ (exported = true → v.exported = true) := by
  have hexport : ∀ (b : Bool) {w : ShellVariable}, w.value = value → IsPlain w →
      (if b then w.export else w).value = value ∧ IsPlain (if b then w.export else w) ∧
        (b = true ∨ w.exported = true → (if b then w.export else w).exported = true) := by
    rintro b w hvalue ⟨hreadonly, hint, htransform⟩
    cases b with
    | true => exact ⟨hvalue, ⟨hreadonly, hint, htransform⟩, fun _ => rfl⟩
    | false =>
      exact ⟨hvalue, ⟨hreadonly, hint, htransform⟩, fun h => h.resolve_left Bool.false_ne_true⟩
  unfold createVariable
  rw [hnew]
  dsimp only
  unfold ShellEnvironment.add
  obtain ⟨hvalue, hplain, hexported⟩ := hexport
    (exported || (exportAll && e.index.isNone && !e.value.isArray)) rfl (isPlain_new value)
  obtain ⟨hvalue', hplain', hexported'⟩ := hexport env.exportVariablesOnModification hvalue hplain
  cases hfind : env.scopes.findIdx? fun s => s.1 = scope with
  | none =>
    obtain ⟨s, hs, hs'⟩ := List.mem_map.1 hscope
    have hnone := List.findIdx?_eq_none_iff.1 hfind s hs
    rw [hs'] at hnone
    exact absurd hnone (by simp)
  | some i =>
    obtain ⟨hi, hscopeAt, hbefore⟩ := List.findIdx?_eq_some_iff_getElem.1 hfind
    refine ⟨i, _, _, rfl, ?_, fun j hj => ?_, hvalue', hplain',
      fun h => hexported' (.inr (hexported (.inl (by rw [h]; rfl))))⟩
    · rw [List.getElem?_map, List.getElem?_eq_getElem hi]
      exact congrArg some (of_decide_eq_true hscopeAt)
    · have hj' : j < env.scopes.length := Nat.lt_trans hj hi
      rw [List.getElem?_map, List.getElem?_eq_getElem hj']
      intro h
      exact hbefore j hj (decide_eq_true (Option.some.inj h))

omit [Casing] in
theorem createVariable_error {env : ShellEnvironment} {fault : Fault}
    (hnew : newValue e = .error fault) (name : List Char) (exported exportAll : Bool)
    (scope : EnvironmentScope) :
    createVariable env name e exported exportAll scope = (.error fault, env) := by
  unfold createVariable
  rw [hnew]

theorem assignExisting_of_error {fault : Fault} (hnew : newValue e = .error fault)
    (append exported exportAll : Bool) (v : ShellVariable) :
    ∃ fault', assignExisting e append exported exportAll v = (.error fault', v) := by
  obtain ⟨index, literal⟩ := e
  unfold newValue at hnew
  unfold assignExisting
  cases index with
  | none => cases literal <;> cases hnew
  | some index =>
    cases literal with
    | scalar s => cases hnew
    | array literals => exact ⟨_, rfl⟩

variable {append : Bool}

theorem readonly_of_storesAsNew (h : StoresAsNew e append v) (hnew : newValue e = .ok value) :
    v.readonly = false := by
  obtain ⟨index, literal⟩ := e
  unfold StoresAsNew at h
  unfold newValue at hnew
  cases index with
  | none => cases literal <;> exact h.1
  | some index =>
    cases literal with
    | scalar s => exact h.1
    | array literals => cases hnew

/-! ## One assignment -/

omit [Casing] in
theorem During.recount {names assigned : List (List Char)} {env₀ env env' : ShellEnvironment}
    (h : During names assigned env₀ env env') (count count' : Nat) :
    During names assigned env₀ { env with entryCount := count }
      { env' with entryCount := count' } :=
  ⟨⟨h.shadows.types, h.shadows.flag, h.shadows.others, h.shadows.values⟩,
    ⟨h.below.types, h.below.vars⟩, h.pending, h.done⟩

omit [Casing] in
theorem Shadows.createVariable {names : List (List Char)} {env env' : ShellEnvironment}
    (h : Shadows names env env')
    (hnew : newValue e = .ok value) (name : List Char) (exportAll : Bool) :
    ∃ w count, createVariable env' name e true exportAll .command =
        (.ok (), { env'.setAt 0 name (some w) with entryCount := count }) ∧
      w.value = value ∧ IsPlain w ∧ w.exported = true := by
  have hcommand : EnvironmentScope.command ∈ env'.scopes.map Prod.fst := by
    rw [h.types]
    exact List.mem_cons_self
  obtain ⟨i, w, count, hcreate, -, hfirst, hvalue, hplain, hexported⟩ :=
    createVariable_ok hnew hcommand name true exportAll
  have hi : i = 0 := by
    by_contra hi
    refine hfirst 0 (Nat.pos_of_ne_zero hi) ?_
    rw [h.types]
    rfl
  subst hi
  exact ⟨w, count, hcreate, hvalue, hplain, hexported rfl⟩

theorem assignExisting_exported {exportAll : Bool}
    (h : (assignExisting e append true exportAll v).1 = .ok ()) :
    (assignExisting e append true exportAll v).2.exported = true := by
  have hexport : ∀ {r : Attempt ShellVariable Unit}, (thenExport true r).1 = .ok () →
      (thenExport true r).2.exported = true := by
    rintro ⟨_ | _, w⟩ h
    · cases h
    · rfl
  unfold assignExisting at h ⊢
  split at h
  · split at h
    · exact hexport h
    · cases h
  · rw [Bool.true_or] at h ⊢
    exact hexport h

omit [Casing] in
theorem Below.assignTop {names : List (List Char)} {env₀ env' : ShellEnvironment}
    (h : Below names env₀ env') (name : List Char) (w : Option ShellVariable) :
    Below names env₀ (env'.setAt 0 name w) := by
  refine ⟨?_, fun m hm j => ?_⟩
  · rw [ShellEnvironment.types_setAt]
    exact h.types
  · rw [ShellEnvironment.varAt_setAt_of_ne env' _ fun hj => absurd hj.1 (Nat.succ_ne_zero j)]
    exact h.vars m hm j

omit [Casing] in
def Writable (env : ShellEnvironment) (name : List Char) : Prop :=
  ∀ scope v, env.get name = some (scope, v) → v.readonly = false

/-- Both assignments are made and leave environments side by side, or both are refused. -/
def StepSideBySide (names assigned : List (List Char)) (env₀ : ShellEnvironment)
    (name : List Char) (r r' : Attempt ShellEnvironment Unit) : Prop :=
  (r.1 = .ok () ∧ r'.1 = .ok () ∧ During names (name :: assigned) env₀ r.2 r'.2 ∧
      (name ∉ assigned → Writable env₀ name)) ∨
    (Refused r ∧ Refused r' ∧ Below names env₀ r'.2)

namespace During

variable {names assigned : List (List Char)} {env₀ env env' : ShellEnvironment}

theorem assign_absent (h : During names assigned env₀ env env')
    (hname : name ∈ names) (hpending : name ∉ assigned) (hnone : env.getMut name = none)
    (hglobal : EnvironmentScope.global ∈ env.scopes.map Prod.fst) (e : Expanded)
    (append exportAll : Bool) :
    StepSideBySide names assigned env₀ name
      (assignExpanded e name append false exportAll none .global env)
      (assignExpanded e name append true exportAll (some .command) .command env') := by
  have hnone' : env'.getMut name = none := by
    rw [h.get_pending' hname hpending, hnone]
    rfl
  unfold assignExpanded
  rw [hnone, hnone']
  dsimp only
  cases hnew : newValue e with
  | error fault =>
    rw [createVariable_error hnew, createVariable_error hnew]
    exact .inr ⟨⟨fault, rfl⟩, ⟨fault, rfl⟩, h.below⟩
  | ok value =>
    obtain ⟨i, v, count, hcreate, hscope, -, hvalue, -⟩ :=
      createVariable_ok hnew hglobal name false exportAll
    obtain ⟨w, count', hcreate', hvalue', hplain, hexported⟩ :=
      h.shadows.createVariable hnew name exportAll
    rw [hcreate, hcreate']
    refine .inl ⟨rfl, rfl, ?_, fun _ scope u hget => ?_⟩
    · exact (h.assign hname hscope (fun j _ => ShellEnvironment.getMut_eq_none hnone j)
        hexported hplain (hvalue.trans hvalue'.symm)).recount count count'
    · rw [ShellEnvironment.get_eq_getMut, ← h.get_pending hname hpending, hnone] at hget
      cases hget

theorem assign_pending (h : During names assigned env₀ env env')
    (hname : name ∈ names) (hpending : name ∉ assigned)
    (hget : env.getMut name = some (i, scope, v)) (hscope : scope ≠ .command)
    (hstores : StoresAsNew e append v) (exportAll : Bool) :
    StepSideBySide names assigned env₀ name
      (assignExpanded e name append false exportAll none .global env)
      (assignExpanded e name append true exportAll (some .command) .command env') := by
  have hget' : env'.getMut name = some (i + 1, scope, v) := by
    rw [h.get_pending' hname hpending, hget]
    rfl
  unfold assignExpanded
  rw [hget, hget']
  dsimp only
  have hany : (none : Option EnvironmentScope).isNone = true ∨ some scope = none := .inl rfl
  have hother : ¬((some EnvironmentScope.command).isNone = true ∨ some scope = some .command) := by
    rintro (h | h)
    · cases h
    · exact hscope (Option.some.inj h)
  rw [if_pos hany, if_neg hother]
  cases hnew : newValue e with
  | error fault =>
    obtain ⟨fault', hrefused⟩ := assignExisting_of_error hnew append false exportAll v
    rw [createVariable_error hnew, hrefused]
    exact .inr ⟨⟨fault', rfl⟩, ⟨fault, rfl⟩, h.below⟩
  | ok value =>
    obtain ⟨hok, hvalue⟩ := assignExisting_of_storesAsNew hstores exportAll hnew
    obtain ⟨w, count', hcreate', hvalue', hplain, hexported⟩ :=
      h.shadows.createVariable hnew name exportAll
    obtain ⟨htype, -, hfirst⟩ := ShellEnvironment.getMut_eq_some.1 hget
    rw [hcreate']
    refine .inl ⟨hok, rfl, ?_, fun _ scope' u hu => ?_⟩
    · exact (h.assign hname htype hfirst hexported hplain
        (hvalue.trans hvalue'.symm)).recount _ count'
    · rw [ShellEnvironment.get_eq_getMut, ← h.get_pending hname hpending, hget] at hu
      cases hu
      exact readonly_of_storesAsNew hstores hnew

theorem assign_again (h : During names assigned env₀ env env')
    (hname : name ∈ names) (hassigned : name ∈ assigned)
    (hget : env.getMut name = some (i, scope, v)) (hplain : IsPlain v)
    (e : Expanded) (append exportAll : Bool) :
    StepSideBySide names assigned env₀ name
      (assignExpanded e name append false exportAll none .global env)
      (assignExpanded e name append true exportAll (some .command) .command env') := by
  obtain ⟨w, htop, -, hplain'⟩ := h.done name hassigned
  have hget' : env'.getMut name = some (0, .command, w) :=
    ShellEnvironment.getMut_of_top h.shadows.types htop
  have hvalue : v.value = w.value := by
    have hvalues := h.shadows.values name hname
    rw [ShellEnvironment.get_eq_getMut, ShellEnvironment.get_eq_getMut, hget, hget'] at hvalues
    exact (Option.some.inj hvalues).symm
  obtain ⟨hsame, hakin⟩ :=
    (hplain.akin hplain' hvalue).assignExisting e append false true exportAll
  unfold assignExpanded
  rw [hget, hget']
  dsimp only
  have hany : (none : Option EnvironmentScope).isNone = true ∨ some scope = none := .inl rfl
  have hsame' : (some EnvironmentScope.command).isNone = true ∨
      some EnvironmentScope.command = some .command := .inr rfl
  rw [if_pos hany, if_pos hsame']
  cases hr : (assignExisting e append false exportAll v).1 with
  | error fault =>
    exact .inr ⟨⟨fault, hr⟩, ⟨fault, hsame.symm.trans hr⟩, h.below.assignTop name _⟩
  | ok _ =>
    obtain ⟨htype, -, hfirst⟩ := ShellEnvironment.getMut_eq_some.1 hget
    have hexported := assignExisting_exported (hsame.symm.trans hr)
    exact .inl ⟨hr, hsame.symm.trans hr, h.assign hname htype hfirst hexported
      (hplain'.assignExisting e append true exportAll) hakin.value, fun hn => absurd hassigned hn⟩

theorem step {W : Type} {x : WordExpander W} {a : Assignment W}
    (h : During names assigned env₀ env env') (hassigned : ∀ name ∈ assigned, name ∈ names)
    (ha : a.name ∈ names) (hharmless : Harmless x names assigned a env) (exportAll : Bool) :
    StepSideBySide names assigned env₀ a.name (assignAlone x exportAll a env)
      (assignForCommand x exportAll a env') := by
  obtain ⟨hspares, hsteady⟩ := hharmless.steady
  obtain ⟨hsame, hspares', hshadows⟩ := hsteady env' h.shadows
  have hexpanded := h.expanded hassigned hspares hspares' hshadows
  have hstores := hharmless.stores
  unfold assignAlone assignForCommand applyAssignment
  rcases hr : x.expand a env with ⟨r, env₁⟩
  rcases hr' : x.expand a env' with ⟨r', env₁'⟩
  rw [hr, hr'] at hsame hexpanded
  cases hsame
  cases r with
  | error fault => exact .inr ⟨⟨fault, rfl⟩, ⟨fault, rfl⟩, hexpanded.below⟩
  | ok e =>
    dsimp only
    have hstore := hstores e env₁ hr
    rw [ShellEnvironment.get_eq_getMut] at hstore
    cases hget : env₁.getMut a.name with
    | none =>
      rw [hget] at hstore
      have hpending : a.name ∉ assigned := by
        intro hmem
        obtain ⟨w, htop, -⟩ := hexpanded.done a.name hmem
        have hvalues := hexpanded.shadows.values a.name ha
        rw [ShellEnvironment.get_eq_getMut, ShellEnvironment.get_eq_getMut, hget,
          ShellEnvironment.getMut_of_top hexpanded.shadows.types htop] at hvalues
        cases hvalues
      exact hexpanded.assign_absent ha hpending hget hstore e a.append exportAll
    | some found =>
      obtain ⟨i, scope, v⟩ := found
      rw [hget] at hstore
      dsimp only [Option.map_some] at hstore
      split_ifs at hstore with hmem
      · exact hexpanded.assign_again ha hmem hget hstore e a.append exportAll
      · exact hexpanded.assign_pending ha hmem hget hstore.1 hstore.2 exportAll

theorem run {W : Type} {x : WordExpander W} {exportAll : Bool} {assignments : List (Assignment W)} :
    ∀ {assigned : List (List Char)} {env env' : ShellEnvironment},
      During names assigned env₀ env env' → (∀ name ∈ assigned, name ∈ names) →
      (∀ a ∈ assignments, a.name ∈ names) →
      HarmlessThroughout x exportAll names assigned assignments env →
      let r := assignEach (assignAlone x exportAll) assignments env
      let r' := assignEach (assignForCommand x exportAll) assignments env'
      (∃ assigned', r.1 = .ok () ∧ r'.1 = .ok () ∧ During names assigned' env₀ r.2 r'.2 ∧
          (∀ name ∈ assigned, name ∈ assigned') ∧
          ∀ a ∈ assignments, a.name ∈ assigned' ∧ (a.name ∉ assigned → Writable env₀ a.name)) ∨
        (Refused r ∧ Refused r' ∧ Below names env₀ r'.2) := by
  induction assignments with
  | nil =>
    intro assigned env env' h _ _ _
    exact .inl ⟨assigned, rfl, rfl, h, fun _ hname => hname, nofun⟩
  | cons a assignments ih =>
    intro assigned env env' h hassigned hnames hharmless
    obtain ⟨hfirst, hothers⟩ := hharmless
    have ha := hnames a List.mem_cons_self
    have hstep := h.step hassigned ha hfirst exportAll
    unfold assignEach
    rcases hr : assignAlone x exportAll a env with ⟨r, env₁⟩
    rcases hr' : assignForCommand x exportAll a env' with ⟨r', env₁'⟩
    rw [hr, hr'] at hstep
    rcases hstep with ⟨hok, hok', hduring, hwritable⟩ | ⟨⟨fault, hr⟩, ⟨fault', hr'⟩, hbelow⟩
    · cases hok
      cases hok'
      dsimp only
      have hassigned' : ∀ name ∈ a.name :: assigned, name ∈ names := by
        intro name hname
        rcases List.mem_cons.1 hname with rfl | hname
        · exact ha
        · exact hassigned name hname
      rcases ih hduring hassigned' (fun b hb => hnames b (List.mem_cons_of_mem a hb))
        (hothers env₁ hr) with ⟨assigned', hrun, hrun', hlast, hkept, hall⟩ | hrefused
      · refine .inl ⟨assigned', hrun, hrun', hlast,
          fun name hname => hkept name (List.mem_cons_of_mem _ hname), fun b hb => ?_⟩
        rcases List.mem_cons.1 hb with rfl | hb
        · exact ⟨hkept _ List.mem_cons_self, hwritable⟩
        · refine ⟨(hall b hb).1, fun hb' => ?_⟩
          by_cases hname : b.name = a.name
          · rw [hname] at hb' ⊢
            exact hwritable hb'
          · exact (hall b hb).2 fun hmem =>
              (List.mem_cons.1 hmem).elim hname hb'
      · exact .inr hrefused
    · cases hr
      cases hr'
      exact .inr ⟨⟨fault, rfl⟩, ⟨fault', rfl⟩, hbelow⟩

end During

/-! ## All assignments -/

omit [Casing] in
theorem during_pushScope (names : List (List Char)) (env : ShellEnvironment) :
    During names [] env env (env.pushScope .command) where
  shadows := ⟨rfl, rfl, fun _ _ => ⟨rfl, fun _ => rfl⟩, fun _ _ => rfl⟩
  below := ⟨rfl, fun _ _ _ => rfl⟩
  pending := fun _ _ _ => ⟨rfl, fun _ => rfl⟩
  done := nofun

omit [Casing] in
theorem varAt_popScope (env : ShellEnvironment) (expected : EnvironmentScope) (i : Nat)
    (name : List Char) : (env.popScope expected).2.varAt i name = env.varAt (i + 1) name := by
  obtain ⟨scopes, flag, count⟩ := env
  cases scopes with
  | nil => rfl
  | cons s scopes => rfl

/-- **Temporary.** Assignments that are harmless are temporary plain assignments, for a command that
does not change their names. -/
theorem temporary_of_harmless {W : Type} (x : WordExpander W) (exportAll : Bool)
    (assignments : List (Assignment W)) (command : ShellEnvironment → ShellEnvironment)
    (env : ShellEnvironment)
    (hharmless : HarmlessThroughout x exportAll (assignments.map (·.name)) [] assignments env)
    (hcommand : Spares (assignments.map (·.name)) (commandEnvironment x exportAll assignments env).2
      (command (commandEnvironment x exportAll assignments env).2)) :
    Temporary x exportAll assignments command env := by
  have hnames : ∀ a ∈ assignments, a.name ∈ assignments.map (·.name) := fun a ha =>
    List.mem_map_of_mem ha
  have hrun := (during_pushScope (assignments.map (·.name)) env).run nofun hnames hharmless
  change (∃ _, (assignmentsAlone x exportAll assignments env).1 = _ ∧
    (commandEnvironment x exportAll assignments env).1 = _ ∧ _) ∨ _ at hrun
  rcases hrun with ⟨assigned, hok, hok', hduring, -, hall⟩ | ⟨hrefused, hrefused', hbelow⟩
  · change During _ _ _ (assignmentsAlone x exportAll assignments env).2
      (commandEnvironment x exportAll assignments env).2 at hduring
    have hnot : ¬Refused (assignmentsAlone x exportAll assignments env) := by
      rintro ⟨fault, h⟩
      rw [hok] at h
      cases h
    have hnot' : ¬Refused (commandEnvironment x exportAll assignments env) := by
      rintro ⟨fault, h⟩
      rw [hok'] at h
      cases h
    refine ⟨iff_of_false hnot' hnot, fun a ha scope v hget hv => ?_, fun _ a ha => ?_,
      fun a ha i => ?_⟩
    · have hwritable := (hall a ha).2 List.not_mem_nil scope v hget
      rw [hv] at hwritable
      cases hwritable
    · obtain ⟨w, htop, hexported, -⟩ := hduring.done a.name (hall a ha).1
      have hget : (commandEnvironment x exportAll assignments env).2.get a.name =
          some (.command, w) := by
        rw [ShellEnvironment.get_eq_getMut,
          ShellEnvironment.getMut_of_top hduring.shadows.types htop]
        rfl
      refine ⟨w, hget, hexported, ?_⟩
      rw [← hduring.shadows.values a.name (hnames a ha), hget]
      rfl
    · unfold executeCommand
      rcases hr : commandEnvironment x exportAll assignments env with ⟨r, env'⟩
      rw [hr] at hok' hduring hcommand
      cases hok'
      dsimp only
      rw [varAt_popScope, hcommand.vars a.name (hnames a ha),
        hduring.below.vars a.name (hnames a ha)]
  · change Refused (commandEnvironment x exportAll assignments env) at hrefused'
    change Below _ _ (commandEnvironment x exportAll assignments env).2 at hbelow
    refine ⟨iff_of_true hrefused' hrefused, fun a ha scope v _ _ => ⟨hrefused', hrefused⟩,
      fun h => absurd hrefused' h, fun a ha i => ?_⟩
    obtain ⟨fault, hfault⟩ := hrefused'
    unfold executeCommand
    rcases hr : commandEnvironment x exportAll assignments env with ⟨r, env'⟩
    rw [hr] at hfault hbelow
    cases hfault
    dsimp only
    rw [varAt_popScope, hbelow.vars a.name (hnames a ha)]

end

def literalWords : WordExpander (List Char) where
  basicWord word := pure word
  assignmentWord word := pure word
  fields word := pure [word]
  evalIndex text := pure ((parseI64 text).getD 0)

theorem steady_literal (names : List (List Char)) (name word : List Char) (append : Bool)
    (env : ShellEnvironment) :
    literalWords.Steady names ⟨name, none, .scalar word, append⟩ env :=
  ⟨⟨rfl, fun _ _ _ => rfl⟩, fun _ h => ⟨rfl, ⟨rfl, fun _ _ _ => rfl⟩, h⟩⟩

/-- `x=1 y=2 command`, where `x` is `a`. -/
theorem temporary_two : @Temporary asciiCasing _ literalWords false
      [⟨['x'], none, .scalar ['1'], false⟩, ⟨['y'], none, .scalar ['2'], false⟩] id
      oneVariable := by
  let _ := asciiCasing
  refine temporary_of_harmless literalWords false _ id oneVariable ⟨⟨steady_literal _ _ _ _ _, ?_⟩,
    fun env₁ h₁ => ⟨⟨steady_literal _ _ _ _ _, ?_⟩, fun _ _ => trivial⟩⟩
    ⟨rfl, fun _ _ _ => rfl⟩
  · rintro e env ⟨⟩
    exact ⟨nofun, rfl, rfl, .inr ⟨['a'], rfl, nofun⟩⟩
  · cases h₁
    rintro e env ⟨⟩
    exact List.mem_cons_self

/-- `x+=b command`, where `x` is `a`: the command finds `b`. -/
theorem not_temporary_append :
    ¬ @Temporary asciiCasing _ literalWords false [⟨['x'], none, .scalar ['b'], true⟩] id
      oneVariable := by
  let _ := asciiCasing
  intro h
  have hnot : ¬Refused (commandEnvironment literalWords false
      [⟨['x'], none, .scalar ['b'], true⟩] oneVariable) := fun ⟨_, h⟩ => nomatch h
  obtain ⟨w, hget, -, hvalue⟩ := h.seen hnot _ List.mem_cons_self
  have hw : w.value = .string ['b'] := by
    cases hget
    rfl
  rw [hw] at hvalue
  have halone : ((assignmentsAlone literalWords false [⟨['x'], none, .scalar ['b'], true⟩]
      oneVariable).2.get ['x']).map (·.2.value) = some (.string ['a', 'b']) := rfl
  rw [halone] at hvalue
  cases hvalue

end Seahaven.Shell
