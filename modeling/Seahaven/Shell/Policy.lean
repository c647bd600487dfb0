import Seahaven.Text

/-!
# The builtin allowlist and the closed world

1. `BuiltinPolicy`: which builtins a shell may register.
2. `ExternalExecution`: which external programs it may start. In the closed world that is the
   launcher alone, started to dispatch one bundled utility that the allowlist admits.
-/

namespace Seahaven.Shell

/-! ## Builtins -/

/-- Which builtins a shell registers. -/
inductive BuiltinPolicy
  | sealed
  | open
  | allowlist (names : List OsStr)
  deriving DecidableEq

/-- Whether `name` may be registered. -/
def BuiltinPolicy.admits : BuiltinPolicy → OsStr → Bool
  | .sealed, _ => false
  | .open, _ => true
  | .allowlist names, name => names.contains name

/-- `BuiltinPolicy::is_open`. -/
def BuiltinPolicy.isOpen : BuiltinPolicy → Bool
  | .open => true
  | _ => false

/-! ## Host paths as they are compared -/

/-- `Path::components`: repeated separators and `.` after the first component do not count. -/
def pathComponents (s : OsStr) : PathBuf :=
  let meant := fun parts : List OsStr => parts.filter fun c => c ≠ [] && c ≠ OsStr.dot
  match s.split with
  | [] => []
  | first :: rest =>
    if s.isAbsolute then [OsStr.slash] :: meant rest
    else if first = [] then meant rest
    else first :: meant rest

/-- `Path::new(a) == b`. -/
def samePath (a b : OsStr) : Bool := pathComponents a = pathComponents b

/-! ## External programs -/

/-- The one program that runs in the closed world, and the argument that marks a dispatch. -/
structure TrustedLauncher where
  path : OsStr
  dispatchFlag : OsStr
  deriving DecidableEq

/-- Policy governing external process execution. -/
inductive ExternalExecution
  | sealed
  | open
  | bundled (launcher : TrustedLauncher)
  deriving DecidableEq

/-- How a permitted program is found on the host. -/
inductive ExecPermit
  | viaNamespace
  | trustedLauncher (path : OsStr)
  deriving DecidableEq

namespace ExternalExecution

/-- `ExternalExecution::permit`. -/
def permit (policy : ExternalExecution) (commandName : OsStr) (argv1 argv2 : Option OsStr)
    (builtins : BuiltinPolicy) : Option ExecPermit :=
  match policy with
  | .open => some .viaNamespace
  | .sealed => none
  | .bundled launcher =>
    let isLauncher := samePath commandName launcher.path
    let isDispatch := argv1 = some launcher.dispatchFlag
    if !isLauncher || !isDispatch then none
    else
      match argv2 with
      | none => none
      | some utility =>
        if !builtins.admits utility then none else some (.trustedLauncher launcher.path)

/-- `ExternalExecution::names_launcher`. -/
def namesLauncher (policy : ExternalExecution) (commandName : OsStr) : Bool :=
  match policy with
  | .bundled launcher => samePath commandName launcher.path
  | _ => false

/-- **What the closed world permits.** The launcher, told to dispatch an admitted utility. -/
theorem permit_bundled {l : TrustedLauncher} {name : OsStr} {argv1 argv2 : Option OsStr}
    {builtins : BuiltinPolicy} {p : ExecPermit} :
    permit (.bundled l) name argv1 argv2 builtins = some p ↔
      p = .trustedLauncher l.path ∧ samePath name l.path = true ∧
        argv1 = some l.dispatchFlag ∧
          ∃ utility, argv2 = some utility ∧ builtins.admits utility = true := by
  by_cases hl : samePath name l.path = true
  · by_cases hd : argv1 = some l.dispatchFlag
    · cases argv2 with
      | none => simp [permit, hl, hd]
      | some utility =>
        by_cases ha : builtins.admits utility = true
        · have hp : permit (.bundled l) name argv1 (some utility) builtins =
              some (.trustedLauncher l.path) := by simp [permit, hl, hd, ha]
          rw [hp, Option.some.injEq, and_iff_left ⟨hl, hd, utility, rfl, ha⟩]
          exact eq_comm
        · simp [permit, hl, hd, ha]
    · simp [permit, hl, hd]
  · simp [permit, hl]

theorem permit_dispatch_eq_none {l : TrustedLauncher} {utility : OsStr} {builtins : BuiltinPolicy} :
    permit (.bundled l) l.path (some l.dispatchFlag) (some utility) builtins = none ↔
      builtins.admits utility = false := by
  simp [permit, samePath]

theorem samePath_of_namesLauncher {policy : ExternalExecution} {name : OsStr}
    (h : policy.namesLauncher name = true) :
    ∃ l, policy = .bundled l ∧ samePath name l.path = true := by
  cases policy with
  | bundled l => exact ⟨l, rfl, h⟩
  | sealed => exact absurd h nofun
  | «open» => exact absurd h nofun

end ExternalExecution

end Seahaven.Shell
