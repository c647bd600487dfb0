import Seahaven.Shell.World

/-!
# The closed world is closed

1. What `composeStdCommand` composes under each policy.
2. `Vetted`: what the lookup of an external program has put to the namespace.
3. `closed_world`: over any run of moves that leaves the execution policy alone, a process is
   started as a bundled dispatch of an admitted utility, or, in a sealed world, not at all.
-/

namespace Seahaven.Shell

variable {β : Type}

/-! ## The child's environment -/

section Env

variable {cmd : StdCommand}

theorem program_setEnvs (cmd : StdCommand) (vars : List (OsStr × OsStr)) :
    (cmd.setEnvs vars).program = cmd.program ∧ (cmd.setEnvs vars).args = cmd.args := by
  induction vars generalizing cmd with
  | nil => exact ⟨rfl, rfl⟩
  | cons v vars ih => exact ih (cmd.setEnv v.1 v.2)

theorem filter_setEnv (cmd : StdCommand) (name value : OsStr) :
    (cmd.setEnv name value).env.filter (·.1 = name) = [(name, value)] := by
  rw [StdCommand.setEnv, List.filter_append, List.filter_filter]
  simp

end Env

/-! ## What is composed -/

/-- A process is the launcher's dispatch of a utility that the shell's policy admits, and it is
handed the shell's session on one rendezvous. -/
structure IsDispatch (l : TrustedLauncher) (s : State β) (p : Started) : Prop where
  program : p.command.program = l.path
  args : ∃ utility rest, p.command.args = l.dispatchFlag :: utility :: rest ∧
    s.builtinPolicy.admits utility = true
  rendezvous : ∃ r, p.rendezvous = some r ∧
    p.command.env.filter (·.1 = rendezvousEnv) = [(rendezvousEnv, r.path)]
  disposition : p.disposition = .spawn

section Compose

variable {s : State β} {answers : HostAnswers} {name argv0 : OsStr} {args : List OsStr}
  {emptyEnv : Bool} {disposition : Disposition} {cmd : StdCommand} {r : Option Rendezvous}

theorem compose_sealed (hs : s.externalExecution = .sealed) :
    composeStdCommand s answers name argv0 args emptyEnv disposition =
      .error (.externalExecutionRefused name) := by
  rw [composeStdCommand, hs]
  rfl

theorem args_of_getElem? {flag utility : OsStr} (h₀ : args[0]? = some flag)
    (h₁ : args[1]? = some utility) : ∃ rest, args = flag :: utility :: rest := by
  match args with
  | [] => exact absurd h₀ nofun
  | [a] => exact absurd h₁ nofun
  | a :: b :: rest =>
    obtain rfl := Option.some.inj h₀
    obtain rfl := Option.some.inj h₁
    exact ⟨rest, rfl⟩

/-- **In a closed world only a dispatch is composed**, and only to be spawned. -/
theorem compose_bundled {l : TrustedLauncher} (hs : s.externalExecution = .bundled l)
    (h : composeStdCommand s answers name argv0 args emptyEnv disposition = .ok (cmd, r)) :
    IsDispatch l s ⟨cmd, r, disposition⟩ := by
  rw [composeStdCommand, hs] at h
  cases hp : ExternalExecution.permit (.bundled l) name args[0]? args[1]? s.builtinPolicy with
  | none =>
    rw [hp] at h
    exact absurd h nofun
  | some p =>
    obtain ⟨rfl, -, h₀, utility, h₁, ha⟩ := ExternalExecution.permit_bundled.1 hp
    obtain ⟨rest, hargs⟩ := args_of_getElem? h₀ h₁
    rw [hp, hostCommand] at h
    by_cases hd : disposition = .replace
    · rw [if_pos hd] at h
      exact absurd h nofun
    · rw [if_neg hd] at h
      cases hfiles : answers.files with
      | error e =>
        rw [hfiles] at h
        exact absurd h nofun
      | ok u =>
        cases hr : answers.rendezvous with
        | error e =>
          rw [hfiles, hr] at h
          exact absurd h nofun
        | ok rv =>
          rw [hfiles, hr] at h
          obtain ⟨hcmd, hrv⟩ := Prod.mk.inj (Except.ok.inj h)
          refine ⟨?_, ⟨utility, rest, ?_, ha⟩, ⟨rv, hrv.symm, ?_⟩, ?_⟩
          · rw [← hcmd]
            show (if emptyEnv = true then _ else _ : StdCommand).program = _
            split
            · rfl
            · rw [(program_setEnvs _ _).1, (program_setEnvs _ _).1]
          · rw [← hcmd]
            show (if emptyEnv = true then _ else _ : StdCommand).args = _
            split
            · exact hargs
            · rw [(program_setEnvs _ _).2, (program_setEnvs _ _).2]
              exact hargs
          · rw [← hcmd]
            exact filter_setEnv _ _ _
          · cases disposition with
            | spawn => rfl
            | replace => exact absurd rfl hd

end Compose

/-! ## What is started -/

section Start

variable {s : State β} {answers : HostAnswers}

theorem executeExternal_ok {name path : OsStr} {argv0 : Option OsStr} {args : List CommandArg}
    {p : Started} (h : executeExternalCommand s answers name path argv0 args = .ok p) :
    composeStdCommand s answers path (argv0.getD name) (stringArgs args) false .spawn =
      .ok (p.command, p.rendezvous) ∧ p.disposition = .spawn := by
  rw [executeExternalCommand] at h
  cases hc : composeStdCommand s answers path (argv0.getD name) (stringArgs args) false .spawn with
  | error e =>
    rw [hc] at h
    exact absurd h nofun
  | ok c =>
    rw [hc] at h
    cases hs : answers.start with
    | error e =>
      rw [hs] at h
      exact absurd h nofun
    | ok u =>
      rw [hs] at h
      obtain rfl := Except.ok.inj h
      exact ⟨rfl, rfl⟩

theorem execute_started {c : SimpleCommand} {p : Started}
    (h : (execute s answers c).started = .ok (some p)) :
    ∃ t : State β, t.externalExecution = s.externalExecution ∧ t.builtinPolicy = s.builtinPolicy ∧
      ∃ path argv0 args, composeStdCommand t answers path argv0 args false .spawn =
        .ok (p.command, p.rendezvous) ∧ p.disposition = .spawn := by
  obtain ⟨cache, hcache⟩ := resolve_snd c s
  rw [execute] at h
  dsimp only at h
  cases hr : (c.resolve s).1 with
  | builtin r =>
    rw [hr] at h
    cases h
  | function f =>
    rw [hr] at h
    cases h
  | notFound =>
    rw [hr] at h
    cases h
  | external path =>
    rw [hr, hcache] at h
    dsimp only at h
    cases hx : executeExternalCommand { s with programLocationCache := cache } answers c.commandName
        path.toStringLossy c.argv0 (c.args.drop 1) with
    | error e =>
      rw [hx] at h
      cases h
    | ok p' =>
      rw [hx] at h
      obtain rfl := Option.some.inj (Except.ok.inj h)
      obtain ⟨hc, hd⟩ := executeExternal_ok hx
      exact ⟨_, rfl, rfl, _, _, _, hc, hd⟩

theorem exec_started {e : ExecCommand} {p : Started}
    (h : (execCommand s answers e).started = .ok (some p)) :
    ∃ t : State β, t.externalExecution = s.externalExecution ∧ t.builtinPolicy = s.builtinPolicy ∧
      ∃ path argv0 args emptyEnv, composeStdCommand t answers path argv0 args emptyEnv
        p.disposition = .ok (p.command, p.rendezvous) := by
  rw [execCommand] at h
  split at h
  · cases h
  · rename_i name args _
    split at h
    · split at h
      · cases h
      · obtain ⟨t, hx, hb, path, argv0, args, hc, hd⟩ := execute_started h
        exact ⟨t, hx, hb, path, argv0, args, false, hd ▸ hc⟩
    · dsimp only at h
      generalize hargv0 : (if e.execAsLogin = true then os "-" ++ e.nameForArgv0.getD name
        else e.nameForArgv0.getD name) = argv0 at h
      cases hc : composeStdCommand s answers name argv0 args e.emptyEnvironment .replace with
      | error err =>
        rw [hc] at h
        cases h
      | ok c =>
        rw [hc] at h
        cases hs : answers.start with
        | error err =>
          rw [hs] at h
          cases h
        | ok u =>
          rw [hs] at h
          obtain rfl := Option.some.inj (Except.ok.inj h)
          exact ⟨s, rfl, rfl, name, argv0, args, e.emptyEnvironment, hc⟩

/-- **Whatever starts was composed**, in a shell with the same policies. -/
theorem perform_started {a : Act β} {p : Started} (h : (perform s a).started = .ok (some p)) :
    ∃ t : State β, t.externalExecution = s.externalExecution ∧ t.builtinPolicy = s.builtinPolicy ∧
      ∃ answers path argv0 args emptyEnv, composeStdCommand t answers path argv0 args emptyEnv
        p.disposition = .ok (p.command, p.rendezvous) := by
  cases a with
  | execute answers c =>
    obtain ⟨t, hx, hb, path, argv0, args, hc, hd⟩ := execute_started h
    exact ⟨t, hx, hb, answers, path, argv0, args, false, hd ▸ hc⟩
  | exec answers e =>
    obtain ⟨t, hx, hb, path, argv0, args, emptyEnv, hc⟩ := exec_started h
    exact ⟨t, hx, hb, answers, path, argv0, args, emptyEnv, hc⟩
  | _ => exact absurd h nofun

end Start

/-! ## What the lookup has checked -/

/-- What is known of an external program that a lookup found: a name with a separator is itself
executable in the namespace or the launcher's, and a name without one was found executable in a
searched directory, or taken from the location cache as it stood. -/
def Vetted (s : State β) (c : SimpleCommand) (path : OsStr) : Prop :=
  if containsPathSeparator c.commandName = true then
    path = c.commandName ∧ (s.isExecutableInNamespace path = true ∨
      ∃ l, s.externalExecution = .bundled l ∧ samePath path l.path = true)
  else
    match c.pathDirs with
    | some _ => s.session.isExecutable path = true
    | none => s.programLocationCache c.commandName = some path ∨
        s.isExecutableInNamespace path = true

section Vetted

variable {s : State β} {c : SimpleCommand} {path : OsStr}

theorem findUsingCache_fst {name : OsStr} (h : (s.findUsingCache name).1 = some path) :
    s.programLocationCache name = some path ∨ s.isExecutableInNamespace path = true := by
  rw [State.findUsingCache] at h
  split at h
  · rename_i cached hcached
    left
    rw [hcached, ← h]
  · right
    split at h
    · rename_i found hfound
      obtain rfl := Option.some.inj h
      exact List.find?_some hfound
    · cases h

theorem vetted_resolveExternal (h : (c.resolveExternal s).1 = .external path) :
    Vetted s c path := by
  rw [SimpleCommand.resolveExternal] at h
  split at h
  · cases h
  · rename_i hguard
    split at h
    · rename_i hsep
      rw [Vetted, if_neg (by simpa using hsep)]
      cases hdirs : c.pathDirs with
      | some dirs =>
        rw [hdirs] at h
        dsimp only at h ⊢
        split at h
        · rename_i found hfound
          obtain rfl := Resolution.external.inj h
          have := List.find?_some hfound
          rw [Bool.and_eq_true] at this
          exact this.2
        · cases h
      | none =>
        rw [hdirs] at h
        dsimp only at h ⊢
        split at h
        · rename_i found hfound
          obtain rfl := Resolution.external.inj h
          exact findUsingCache_fst hfound
        · cases h
    · rename_i hsep
      have hsep : containsPathSeparator c.commandName = true := by simpa using hsep
      obtain rfl := Resolution.external.inj h
      rw [Vetted, if_pos hsep]
      refine ⟨rfl, ?_⟩
      by_cases hex : s.isExecutableInNamespace c.commandName = true
      · exact .inl hex
      · right
        have hl : s.externalExecution.namesLauncher c.commandName = true := by
          by_contra hne
          exact hguard (by simp [hsep, hex, hne])
        exact ExternalExecution.samePath_of_namesLauncher hl

theorem vetted_resolve (h : (c.resolve s).1 = .external path) : Vetted s c path := by
  rw [SimpleCommand.resolve] at h
  split at h
  · split at h
    · cases h
    · split at h
      · cases h
      · split at h
        · cases h
        · exact vetted_resolveExternal h
  · split at h
    · cases h
    · exact vetted_resolveExternal h

theorem vetted_perform {a : Act β} (h : (perform s a).resolution = some (c, .external path)) :
    Vetted s c path := by
  have hexecute : ∀ {answers c'}, (execute s answers c').resolution = some (c, .external path) →
      Vetted s c path := by
    intro answers c' h
    obtain ⟨rfl, hr⟩ := Prod.mk.inj (Option.some.inj h)
    exact vetted_resolve hr
  cases a with
  | execute answers c' => exact hexecute h
  | exec answers e =>
    rw [perform, execCommand] at h
    split at h
    · cases h
    · split at h
      · split at h
        · cases h
        · exact hexecute h
      · cases h
  | _ => cases h

end Vetted

/-! ## The main result -/

/-- What an execution policy has to say about what happened. -/
structure Obeys (policy : ExternalExecution) (e : Event β) : Prop where
  sealed : policy = .sealed → ∀ p, e.outcome.started ≠ .ok (some p)
  bundled : ∀ l, policy = .bundled l → ∀ p, e.outcome.started = .ok (some p) →
    IsDispatch l e.shell p
  vetted : ∀ c path, e.outcome.resolution = some (c, .external path) → Vetted e.shell c path

theorem obeys_event {e : Event β} : Obeys e.shell.externalExecution e := by
  constructor
  · intro hs p hp
    obtain ⟨t, hx, -, answers, path, argv0, args, emptyEnv, hc⟩ := perform_started hp
    rw [compose_sealed (hx.trans hs)] at hc
    exact absurd hc nofun
  · intro l hl p hp
    obtain ⟨t, hx, hb, answers, path, argv0, args, emptyEnv, hc⟩ := perform_started hp
    obtain ⟨hprogram, hargs, hrendezvous, hspawn⟩ := compose_bundled (hx.trans hl) hc
    exact ⟨hprogram, hb ▸ hargs, hrendezvous, hspawn⟩
  · intro c path h
    exact vetted_perform h

theorem externalExecution_perform {s : State β} {a : Act β}
    (ha : ∀ p, a ≠ .setExternalExecution p) :
    (perform s a).after.externalExecution = s.externalExecution := by
  have hexecute : ∀ answers c, (execute s answers c).after.externalExecution =
      s.externalExecution := by
    intro answers c
    obtain ⟨cache, hcache⟩ := resolve_snd c s
    rw [execute]
    dsimp only
    rw [hcache]
  cases a with
  | setExternalExecution p => exact absurd rfl (ha p)
  | registerBuiltin name r =>
    rw [perform, State.registerBuiltin]
    split <;> rfl
  | registerBuiltinIfUnset name r =>
    rw [perform, State.registerBuiltinIfUnset]
    split <;> rfl
  | execute answers c => exact hexecute answers c
  | exec answers e =>
    rw [perform]
    rcases execCommand_after s answers e with h | ⟨c, h⟩
    · rw [h]
    · rw [h, hexecute]
  | _ => rfl

/-- **The closed world is closed.** Whatever is done in shells under an execution policy, and in
the shells cloned from them, short of installing another policy: where the policy is sealed no
process is started; where it names a launcher, every process is the launcher at its own path,
told to dispatch a utility the shell's builtin policy admits at that moment, spawned and handed
one rendezvous, which is the only value its environment has for the rendezvous variable; and a
name with a separator is put to the namespace unless it is the launcher's. -/
theorem closed_world {policy : ExternalExecution} {w : List (State β)}
    (hw : ∀ s ∈ w, s.externalExecution = policy) {ms : List (Move β)}
    (hms : ∀ i a, Move.act i a ∈ ms → ∀ p, a ≠ .setExternalExecution p) :
    ∀ e ∈ events w ms, Obeys policy e := by
  intro e he
  have hpolicy : e.shell.externalExecution = policy :=
    (forall_run (P := fun s => s.externalExecution = policy) (fun _ h => h)
      (fun i a ha _ h => (externalExecution_perform (hms i a ha)).trans h) hw).2 e he
  exact hpolicy ▸ obeys_event

/-! ### A launcher and a shell -/

section Example

def launcher : TrustedLauncher := ⟨os "/opt/brush", os "--invoke-bundled"⟩

/-- A shell that finds nothing in its namespace, with one hashed location. -/
def hashedScratch : Scratch where
  session := ⟨fun _ => false, fun _ => false, fun _ => .error .io⟩
  workingDir := os "/"
  path := []
  exported := []
  funcs := []
  posixMode := false
  programLocationCache := fun name => if name = os "ls" then some launcher.path else none

def hashedShell : State Unit :=
  (State.new ⟨fun _ => none, .open⟩ hashedScratch).setExternalExecution (.bundled launcher)

def willing : HostAnswers := ⟨.ok (), .ok ⟨os "/tmp/s0"⟩, .ok ()⟩

/-- `ls --invoke-bundled cat`. -/
def hashedCommand : SimpleCommand :=
  ⟨os "ls", [.string (os "ls"), .string launcher.dispatchFlag, .string (os "cat")], true, none,
    none⟩

end Example

/-- The hashed shell obeys when it runs that. -/
theorem closed_world_hashedShell :
    Obeys (.bundled launcher) ⟨hashedShell, .execute willing hashedCommand⟩ :=
  @closed_world Unit (.bundled launcher) [hashedShell]
    (fun _ hs => List.mem_singleton.1 hs ▸ rfl) [.act 0 (.execute willing hashedCommand)]
    (fun _ _ ha _ => by
      rw [List.mem_singleton] at ha
      cases ha
      exact nofun)
    _ List.mem_cons_self

/-- A hashed name reaches the launcher without being its name, and without the namespace having
been asked. -/
theorem hashed_name_unchecked :
    ((execute hashedShell willing hashedCommand).started.toOption.bind id).isSome = true ∧
      samePath hashedCommand.commandName launcher.path = false ∧
        hashedShell.session.isExecutable = fun _ => false := by
  refine ⟨?_, ?_, rfl⟩ <;> decide

end Seahaven.Shell
