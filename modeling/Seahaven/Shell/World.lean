import Seahaven.Shell.Command

/-!
# Shells at work

1. The builtin registry: `Shell::new`, `register_builtin`, `set_builtin_policy` and the rest.
2. `Act` and `step`: any number of shells, cloned from one another, and what an embedder or a
   program does in one of them. A program is any sequence of such acts.
3. `registry_admitted`: a shell's registry holds admitted names only.
4. `closed_world`: what is started in a closed world is a bundled dispatch of an admitted utility.
-/

namespace Seahaven.Shell

variable {β : Type}

/-! ## The registry -/

/-- `CreateOptions`, as far as the policies go. -/
structure CreateOptions (β : Type) where
  builtins : OsStr → Option (Registration β)
  builtinPolicy : BuiltinPolicy

/-- `HashMap::retain` by name. -/
def retain (builtins : OsStr → Option (Registration β)) (policy : BuiltinPolicy) :
    OsStr → Option (Registration β) :=
  fun name => if policy.admits name then builtins name else none

namespace State

/-- `Shell::new`. -/
def new (options : CreateOptions β) (scratch : Scratch) : State β where
  toScratch := scratch
  builtins := retain options.builtins options.builtinPolicy
  builtinPolicy := options.builtinPolicy
  externalExecution := .open
  depth := 0

variable (s : State β)

/-- `Shell::register_builtin`. -/
def registerBuiltin (name : OsStr) (registration : Registration β) : State β :=
  if !s.builtinPolicy.admits name then s
  else { s with builtins := Function.update s.builtins name (some registration) }

/-- `Shell::register_builtin_if_unset`. -/
def registerBuiltinIfUnset (name : OsStr) (registration : Registration β) : State β :=
  if !s.builtinPolicy.admits name then s
  else { s with
    builtins := Function.update s.builtins name (some ((s.builtins name).getD registration)) }

/-- An edit through `Shell::builtin_mut`. -/
def builtinMut (name : OsStr) (edit : Registration β → Registration β) : State β :=
  { s with builtins := Function.update s.builtins name ((s.builtins name).map edit) }

/-- `Shell::set_builtin_policy`. -/
def setBuiltinPolicy (policy : BuiltinPolicy) : State β :=
  { s with builtins := retain s.builtins policy, builtinPolicy := policy }

/-- `Shell::set_external_execution`. -/
def setExternalExecution (policy : ExternalExecution) : State β :=
  { s with externalExecution := policy }

/-- `Shell::clone`. -/
def clone : State β := { s with depth := s.depth + 1 }

def Admitted : Prop := ∀ name, (s.builtins name).isSome = true → s.builtinPolicy.admits name = true

end State

section Registry

variable {s : State β}

theorem isSome_retain {builtins : OsStr → Option (Registration β)} {policy : BuiltinPolicy}
    {name : OsStr} (h : (retain builtins policy name).isSome = true) :
    policy.admits name = true := by
  by_contra hne
  rw [retain, if_neg hne] at h
  exact absurd h nofun

theorem admitted_new (options : CreateOptions β) (scratch : Scratch) :
    (State.new options scratch).Admitted := fun _ => isSome_retain

theorem admitted_update {name : OsStr} {r : Option (Registration β)} (hs : s.Admitted)
    (hname : r.isSome = true → s.builtinPolicy.admits name = true) :
    State.Admitted { s with builtins := Function.update s.builtins name r } := by
  intro n hn
  change (Function.update s.builtins name r n).isSome = true at hn
  by_cases h : n = name
  · subst h
    rw [Function.update_self] at hn
    exact hname hn
  · rw [Function.update_of_ne h] at hn
    exact hs n hn

theorem admitted_registerBuiltin (hs : s.Admitted) (name : OsStr) (r : Registration β) :
    (s.registerBuiltin name r).Admitted := by
  rw [State.registerBuiltin]
  by_cases h : s.builtinPolicy.admits name = true
  · rw [if_neg (by simp [h])]
    exact admitted_update hs fun _ => h
  · rw [if_pos (by simp [h])]
    exact hs

theorem admitted_registerBuiltinIfUnset (hs : s.Admitted) (name : OsStr) (r : Registration β) :
    (s.registerBuiltinIfUnset name r).Admitted := by
  rw [State.registerBuiltinIfUnset]
  by_cases h : s.builtinPolicy.admits name = true
  · rw [if_neg (by simp [h])]
    exact admitted_update hs fun _ => h
  · rw [if_pos (by simp [h])]
    exact hs

theorem admitted_builtinMut (hs : s.Admitted) (name : OsStr)
    (edit : Registration β → Registration β) : (s.builtinMut name edit).Admitted := by
  refine admitted_update hs fun h => hs name ?_
  rw [Option.isSome_map] at h
  exact h

theorem admitted_setBuiltinPolicy (s : State β) (policy : BuiltinPolicy) :
    (s.setBuiltinPolicy policy).Admitted := fun _ => isSome_retain

end Registry

/-! ## Resolution and the registry -/

section Resolve

variable {s : State β} {c : SimpleCommand}

theorem resolveExternal_ne_builtin (c : SimpleCommand) (s : State β) (r : Registration β) :
    (c.resolveExternal s).1 ≠ .builtin r := by
  rw [SimpleCommand.resolveExternal]
  split
  · exact nofun
  · split
    · split
      · dsimp only
        split <;> exact nofun
      · dsimp only
        split <;> exact nofun
    · exact nofun

theorem registered_of_resolve {r : Registration β} (h : (c.resolve s).1 = .builtin r) :
    s.builtins c.commandName = some r := by
  rw [SimpleCommand.resolve] at h
  split at h
  · rename_i r' hr
    rw [hr]
    split at h
    · rw [Resolution.builtin.inj h]
    · split at h
      · exact absurd h nofun
      · split at h
        · rw [Resolution.builtin.inj h]
        · exact absurd h (resolveExternal_ne_builtin c s r)
  · split at h
    · exact absurd h nofun
    · exact absurd h (resolveExternal_ne_builtin c s r)

theorem findUsingCache_snd (s : State β) (name : OsStr) :
    ∃ cache, (s.findUsingCache name).2 = { s with programLocationCache := cache } := by
  rw [State.findUsingCache]
  split
  · exact ⟨s.programLocationCache, rfl⟩
  · split
    · exact ⟨_, rfl⟩
    · exact ⟨s.programLocationCache, rfl⟩

theorem resolveExternal_snd (c : SimpleCommand) (s : State β) :
    ∃ cache, (c.resolveExternal s).2 = { s with programLocationCache := cache } := by
  have hsame : ∃ cache, s = { s with programLocationCache := cache } :=
    ⟨s.programLocationCache, rfl⟩
  rw [SimpleCommand.resolveExternal]
  split
  · exact hsame
  · split
    · cases c.pathDirs with
      | some dirs =>
        dsimp only
        split <;> exact hsame
      | none =>
        dsimp only
        split <;> exact findUsingCache_snd s c.commandName
    · exact hsame

theorem resolve_snd (c : SimpleCommand) (s : State β) :
    ∃ cache, (c.resolve s).2 = { s with programLocationCache := cache } := by
  have hsame : ∃ cache, s = { s with programLocationCache := cache } :=
    ⟨s.programLocationCache, rfl⟩
  rw [SimpleCommand.resolve]
  split
  · split
    · exact hsame
    · split
      · exact hsame
      · split
        · exact hsame
        · exact resolveExternal_snd c s
  · split
    · exact hsame
    · exact resolveExternal_snd c s

end Resolve

/-! ## Acts -/

/-- What an embedder, or a program, does in a shell. A program may do anything to the scratch
part, which covers assignments, `cd`, `hash`, functions and options. -/
inductive Act (β : Type)
  | registerBuiltin (name : OsStr) (registration : Registration β)
  | registerBuiltinIfUnset (name : OsStr) (registration : Registration β)
  | builtinMut (name : OsStr) (edit : Registration β → Registration β)
  | setBuiltinPolicy (policy : BuiltinPolicy)
  | setExternalExecution (policy : ExternalExecution)
  | edit (scratch : Scratch)
  | execute (answers : HostAnswers) (command : SimpleCommand)
  | exec (answers : HostAnswers) (command : ExecCommand)

/-- What an act comes to in a shell. -/
def perform (s : State β) : Act β → Outcome β
  | .registerBuiltin name r => ⟨none, .ok none, s.registerBuiltin name r⟩
  | .registerBuiltinIfUnset name r => ⟨none, .ok none, s.registerBuiltinIfUnset name r⟩
  | .builtinMut name edit => ⟨none, .ok none, s.builtinMut name edit⟩
  | .setBuiltinPolicy policy => ⟨none, .ok none, s.setBuiltinPolicy policy⟩
  | .setExternalExecution policy => ⟨none, .ok none, s.setExternalExecution policy⟩
  | .edit scratch => ⟨none, .ok none, { s with toScratch := scratch }⟩
  | .execute answers c => Shell.execute s answers c
  | .exec answers e => execCommand s answers e

/-- A move: an act in one of the shells there are, or a subshell made of it. -/
inductive Move (β : Type)
  | act (shell : Nat) (act : Act β)
  | clone (shell : Nat)

/-- One thing that happened: an act in a shell as it was. -/
structure Event (β : Type) where
  shell : State β
  act : Act β

def Event.outcome (e : Event β) : Outcome β := perform e.shell e.act

def step (w : List (State β)) : Move β → List (State β)
  | .act i a => w.modify i fun s => (perform s a).after
  | .clone i => w ++ (w[i]?.map State.clone).toList

def eventOf (w : List (State β)) : Move β → Option (Event β)
  | .act i a => w[i]?.map fun s => ⟨s, a⟩
  | .clone _ => none

def run (w : List (State β)) : List (Move β) → List (State β)
  | [] => w
  | m :: ms => run (step w m) ms

def events (w : List (State β)) : List (Move β) → List (Event β)
  | [] => []
  | m :: ms => (eventOf w m).toList ++ events (step w m) ms

section Runs

variable {w : List (State β)}

theorem forall_step {P : State β → Prop} (hclone : ∀ s, P s → P s.clone) {m : Move β}
    (hact : ∀ i a, m = .act i a → ∀ s, P s → P (perform s a).after) (hw : ∀ s ∈ w, P s) :
    ∀ s ∈ step w m, P s := by
  intro s hs
  cases m with
  | act i a =>
    rw [step] at hs
    obtain ⟨j, hj, hget⟩ := List.mem_iff_getElem.1 hs
    rw [List.getElem_modify] at hget
    have hlt : j < w.length := by simpa [step] using hj
    have hmem : w[j] ∈ w := List.getElem_mem hlt
    split at hget
    · exact hget ▸ hact i a rfl _ (hw _ hmem)
    · exact hget ▸ hw _ hmem
  | clone i =>
    rcases List.mem_append.1 hs with hs | hs
    · exact hw s hs
    · rw [Option.mem_toList, Option.map_eq_some_iff] at hs
      obtain ⟨s₀, hs₀, rfl⟩ := hs
      exact hclone s₀ (hw s₀ (List.mem_of_getElem? hs₀))

theorem forall_run {P : State β → Prop} (hclone : ∀ s, P s → P s.clone) {ms : List (Move β)}
    (hact : ∀ i a, Move.act i a ∈ ms → ∀ s, P s → P (perform s a).after) (hw : ∀ s ∈ w, P s) :
    (∀ s ∈ run w ms, P s) ∧ ∀ e ∈ events w ms, P e.shell := by
  induction ms generalizing w with
  | nil =>
    refine ⟨hw, fun e he => ?_⟩
    rw [events] at he
    exact absurd he List.not_mem_nil
  | cons m ms ih =>
    have hstep : ∀ s ∈ step w m, P s := by
      refine forall_step hclone (fun i a hm => hact i a ?_) hw
      rw [← hm]
      exact List.mem_cons_self
    obtain ⟨hrun, hevents⟩ := ih (fun i a hm => hact i a (List.mem_cons_of_mem _ hm)) hstep
    refine ⟨hrun, fun e he => ?_⟩
    rw [events, List.mem_append, Option.mem_toList] at he
    rcases he with he | he
    · cases m with
      | act i a =>
        rw [eventOf, Option.map_eq_some_iff] at he
        obtain ⟨s, hs, rfl⟩ := he
        exact hw s (List.mem_of_getElem? hs)
      | clone i => exact absurd he nofun
    · exact hevents e he

end Runs

/-! ## The registry holds admitted names -/

section Admitted

variable {s : State β}

theorem admitted_execute (hs : s.Admitted) (answers : HostAnswers) (c : SimpleCommand) :
    (execute s answers c).after.Admitted := by
  obtain ⟨cache, hcache⟩ := resolve_snd c s
  rw [execute]
  dsimp only
  rw [hcache]
  exact hs

theorem execCommand_after (s : State β) (answers : HostAnswers) (e : ExecCommand) :
    (execCommand s answers e).after = s ∨
      ∃ c, execCommand s answers e = execute s answers c := by
  rw [execCommand]
  split
  · exact .inl rfl
  · split
    · split
      · exact .inl rfl
      · exact .inr ⟨_, rfl⟩
    · exact .inl rfl

theorem admitted_perform (hs : s.Admitted) (a : Act β) : (perform s a).after.Admitted := by
  cases a with
  | registerBuiltin name r => exact admitted_registerBuiltin hs name r
  | registerBuiltinIfUnset name r => exact admitted_registerBuiltinIfUnset hs name r
  | builtinMut name edit => exact admitted_builtinMut hs name edit
  | setBuiltinPolicy policy => exact admitted_setBuiltinPolicy s policy
  | setExternalExecution policy => exact hs
  | edit scratch => exact hs
  | execute answers c => exact admitted_execute hs answers c
  | exec answers e =>
    rw [perform]
    rcases execCommand_after s answers e with h | ⟨c, h⟩
    · rw [h]
      exact hs
    · rw [h]
      exact admitted_execute hs answers c

/-- A shell's builtin policy binds what it can run by name. -/
structure PolicyBinds (s : State β) : Prop where
  /-- A registered name is an admitted one. -/
  registry : s.Admitted
  /-- What runs as a builtin has an admitted name. -/
  builtin : ∀ c r, (SimpleCommand.resolve c s).1 = .builtin r →
    s.builtinPolicy.admits c.commandName = true
  /-- The launcher is refused the dispatch of exactly the names that are denied. -/
  bundled : ∀ (l : TrustedLauncher) utility,
    ExternalExecution.permit (.bundled l) l.path (some l.dispatchFlag) (some utility)
      s.builtinPolicy = none ↔ s.builtinPolicy.admits utility = false

/-- **A denied builtin is nowhere.** Start a shell, clone it as often as you like, and register,
edit, prune, widen and run in any order in any of the shells: a registered name is always one
that shell's policy admits, so a command that runs as a builtin has an admitted name, and the
names a bundled dispatch is refused for are the denied ones. -/
theorem registry_admitted (options : CreateOptions β) (scratch : Scratch) (ms : List (Move β)) :
    ∀ s ∈ run [State.new options scratch] ms, PolicyBinds s := by
  intro s hs
  have hadmitted : s.Admitted := (forall_run (P := State.Admitted) (fun _ h => h)
    (fun _ a _ _ h => admitted_perform h a)
    (fun _ h => List.mem_singleton.1 h ▸ admitted_new options scratch)).1 s hs
  refine ⟨hadmitted, fun c r hr => hadmitted _ ?_, fun l utility => ?_⟩
  · rw [registered_of_resolve hr]
    rfl
  · exact ExternalExecution.permit_dispatch_eq_none

/-- A subshell of a shell that was given a narrower policy. -/
theorem registry_admitted_clone :
    PolicyBinds ((State.new ⟨fun _ => some ⟨(), false, false, false⟩, .open⟩
      ⟨⟨fun _ => false, fun _ => false, fun _ => .error .io⟩, os "/", [], [], [], false,
        fun _ => none⟩).setBuiltinPolicy (.allowlist [os "echo"])).clone :=
  registry_admitted _ _ [.act 0 (.setBuiltinPolicy (.allowlist [os "echo"])), .clone 0] _
    (List.mem_cons_of_mem _ List.mem_cons_self)

end Admitted

end Seahaven.Shell
