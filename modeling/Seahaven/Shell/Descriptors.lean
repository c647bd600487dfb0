import Mathlib.Logic.Function.Basic
import Seahaven.Lib.Op
import Seahaven.Shell.OpenFiles

/-!
# The descriptors of a child

1. `setUpFds`: what `compose_std_command` arranges for the descriptors of the child.
2. `FdCommand.child`: the descriptors of the process that is then started.
3. `sameFds_iff`: when these are the descriptors of the shell.

The three standard descriptors are handed over by the kind of the file, the others by their number,
through `command_fds`.
-/

namespace Seahaven.Shell

variable {δ : Type}

/-! ## Setting up -/

/-- What stops a command from being composed here. -/
inductive FdError
  | io
  | childCreationFailure
  deriving DecidableEq

/-- `std::process::Stdio`. -/
inductive Stdio (δ : Type)
  | inherit
  | null
  | fd (d : δ)

/-- `dup(2)`: an open file that may still be duplicated is. -/
def dup (full : δ → Bool) (d : δ) : Except FdError δ := if full d then .error .io else .ok d

namespace OpenFile

/-- `TryFrom<OpenFile> for Stdio`. -/
def toStdio (full : δ → Bool) : OpenFile δ → Except FdError (Stdio δ)
  | stdin | stdout | stderr => .ok .inherit
  | file f => (dup full f).map .fd
  | pipeReader r => (dup full r).map .fd
  | pipeWriter w => (dup full w).map .fd
  | stream _ _ => .ok .null

end OpenFile

/-- The process the shell runs in. Rust opens the null device on a standard descriptor that a process
is started without. -/
structure Process (δ : Type) where
  stdin : δ
  stdout : δ
  stderr : δ
  /-- The other descriptors that are not closed on `exec`. -/
  others : ShellFd → Option δ

def Process.inherited (p : Process δ) (fd : ShellFd) : Option δ :=
  if fd = 0 then some p.stdin else if fd = 1 then some p.stdout
  else if fd = 2 then some p.stderr else p.others fd

/-- The open file a shell's file refers to. -/
def OpenFile.refers (p : Process δ) : OpenFile δ → Option δ
  | stdin => some p.stdin
  | stdout => some p.stdout
  | stderr => some p.stderr
  | file f => some f
  | pipeReader r => some r
  | pipeWriter w => some w
  | stream _ fd => fd

/-- `OpenFile::try_clone_to_owned`. -/
def OpenFile.tryCloneToOwned (p : Process δ) (full : δ → Bool) (f : OpenFile δ) :
    Except FdError δ :=
  match f.refers p with
  | some d => dup full d
  | none => .error .io

/-- What a descriptor of a child refers to: an open file of its parent, or the null device opened
anew. -/
inductive ChildFile (δ : Type)
  | of (d : δ)
  | null
  deriving DecidableEq

abbrev FdTable (δ : Type) := ShellFd → Option (ChildFile δ)

/-- `command_fds`: refuses a list of mappings, or applies it to the descriptors of a child. -/
abbrev FdMapper (δ : Type) := List (ShellFd × δ) → Option (FdTable δ → FdTable δ)

/-- What `command_fds` documents. -/
structure FdMapper.Maps (mapper : FdMapper δ) : Prop where
  mapped : ∀ {l g t fd d}, mapper l = some g → (fd, d) ∈ l → (l.map Prod.fst).Nodup →
    g t fd = some (.of d)
  kept : ∀ {l g} {t : FdTable δ} {fd}, mapper l = some g → fd ∉ l.map Prod.fst → g t fd = t fd

/-- `std::process::Command`, as far as descriptors go. -/
structure FdCommand (δ : Type) where
  stdin : Option (Stdio δ)
  stdout : Option (Stdio δ)
  stderr : Option (Stdio δ)
  fdMappings : FdTable δ → FdTable δ

section SetUp

variable (p : Process δ) (full : δ → Bool) (mapper : FdMapper δ)
  (params : ExecutionParameters δ) (shell : OpenFiles δ)

/-- `match context.try_fd(fd) { Some(kind) | None => (), Some(file) => .. }`. -/
def setUpStd (fd : ShellFd) (kind : OpenFile δ → Bool) : Except FdError (Option (Stdio δ)) :=
  match params.tryFd shell fd with
  | none => .ok none
  | some f => if kind f then .ok none else (f.toStdio full).map some

def isStdin : OpenFile δ → Bool
  | .stdin => true
  | _ => false

def isStdout : OpenFile δ → Bool
  | .stdout => true
  | _ => false

def isStderr : OpenFile δ → Bool
  | .stderr => true
  | _ => false

/-- The files `inject_fds` is given. -/
def otherFiles : List (ShellFd × OpenFile δ) :=
  (params.iterFds shell).filter fun entry =>
    entry.1 ≠ OpenFiles.stdinFd && entry.1 ≠ OpenFiles.stdoutFd && entry.1 ≠ OpenFiles.stderrFd

def injectFds (files : List (ShellFd × OpenFile δ)) : Except FdError (FdTable δ → FdTable δ) := do
  let mappings ← files.mapM fun entry =>
    (entry.2.tryCloneToOwned p full).map fun parentFd => (entry.1, parentFd)
  match mapper mappings with
  | some g => .ok g
  | none => .error .childCreationFailure

/-- The descriptors in `compose_std_command`. -/
def setUpFds : Except FdError (FdCommand δ) := do
  let stdin ← setUpStd full params shell OpenFiles.stdinFd isStdin
  let stdout ← setUpStd full params shell OpenFiles.stdoutFd isStdout
  let stderr ← setUpStd full params shell OpenFiles.stderrFd isStderr
  let fdMappings ← injectFds p full mapper (otherFiles params shell)
  .ok ⟨stdin, stdout, stderr, fdMappings⟩

end SetUp

/-! ## Starting -/

def stdFile (p : Process δ) (fd : ShellFd) : Option (Stdio δ) → Option (ChildFile δ)
  | none | some .inherit => (p.inherited fd).map .of
  | some .null => some .null
  | some (.fd d) => some (.of d)

/-- The descriptors before `command_fds` applies its mappings. -/
def FdCommand.started (p : Process δ) (cmd : FdCommand δ) : FdTable δ := fun fd =>
  if fd = 0 then stdFile p fd cmd.stdin else if fd = 1 then stdFile p fd cmd.stdout
  else if fd = 2 then stdFile p fd cmd.stderr else (p.others fd).map .of

def FdCommand.child (p : Process δ) (cmd : FdCommand δ) : FdTable δ :=
  cmd.fdMappings (cmd.started p)

/-! ## The child's descriptors and the shell's -/

/-- A number is open on the file the command has there, and closed where it has none. -/
def AsHad (p : Process δ) (had : Option (OpenFile δ)) (found : Option (ChildFile δ)) : Prop :=
  match had with
  | some f => ∃ d, f.refers p = some d ∧ found = some (.of d)
  | none => found = none

def SameFds (p : Process δ) (params : ExecutionParameters δ) (shell : OpenFiles δ)
    (child : FdTable δ) : Prop :=
  ∀ fd, AsHad p (params.tryFd shell fd) (child fd)

/-- A file reaches the child as a standard descriptor: it is no stream, and one that is inherited is
what the process has open under that very number. -/
def OpenFile.Keeps (p : Process δ) (fd : ShellFd) : OpenFile δ → Prop
  | stdin => p.inherited fd = some p.stdin
  | stdout => p.inherited fd = some p.stdout
  | stderr => p.inherited fd = some p.stderr
  | file _ | pipeReader _ | pipeWriter _ => True
  | stream _ _ => False

/-- The standard descriptors are all open and reach the child, and the process leaks no other
descriptor that the command has closed. -/
def KeepsFds (p : Process δ) (params : ExecutionParameters δ) (shell : OpenFiles δ) : Prop :=
  (∀ fd, fd = 0 ∨ fd = 1 ∨ fd = 2 → ∃ f, params.tryFd shell fd = some f ∧ f.Keeps p fd) ∧
    ∀ fd, fd ≠ 0 → fd ≠ 1 → fd ≠ 2 → params.tryFd shell fd = none → p.others fd = none

section Child

variable {p : Process δ} {full : δ → Bool} {mapper : FdMapper δ} {params : ExecutionParameters δ}
  {shell : OpenFiles δ}

theorem dup_eq_ok {d d' : δ} : dup full d = .ok d' ↔ full d = false ∧ d' = d := by
  unfold dup
  cases full d <;> simp [eq_comm]

theorem refers_of_clone {f : OpenFile δ} {d : δ} (h : f.tryCloneToOwned p full = .ok d) :
    f.refers p = some d := by
  unfold OpenFile.tryCloneToOwned at h
  split at h
  · rename_i d' hd
    rw [hd, (dup_eq_ok.1 h).2]
  · cases h

theorem stdFile_of_setUp {fd : ShellFd} {kind : OpenFile δ → Bool} {x : Option (Stdio δ)}
    (hkind : ∀ f, kind f = true → f.toStdio full = .ok .inherit)
    (h : setUpStd full params shell fd kind = .ok x) :
    stdFile p fd x = match params.tryFd shell fd with
      | none | some .stdin | some .stdout | some .stderr => (p.inherited fd).map .of
      | some (.file d) | some (.pipeReader d) | some (.pipeWriter d) => some (.of d)
      | some (.stream _ _) => some .null := by
  unfold setUpStd at h
  cases hf : params.tryFd shell fd with
  | none =>
    rw [hf] at h
    obtain rfl := Except.ok.inj h
    rfl
  | some f =>
    rw [hf] at h
    dsimp only at h
    have hx : x = none ∧ f.toStdio full = .ok .inherit ∨
        ∃ y, x = some y ∧ f.toStdio full = .ok y := by
      split at h
      · rename_i hk
        exact Or.inl ⟨(Except.ok.inj h).symm, hkind f hk⟩
      · obtain ⟨y, hy, rfl⟩ := Op.except_map_eq_ok.1 h
        exact Or.inr ⟨y, rfl, hy⟩
    have hdup : ∀ d, (dup full d).map Stdio.fd ≠ .ok .inherit := fun d hd => by
      obtain ⟨d', -, hd'⟩ := Op.except_map_eq_ok.1 hd
      cases hd'
    have hfile : ∀ d y, (dup full d).map Stdio.fd = .ok y → y = .fd d := fun d y hd => by
      obtain ⟨d', hd', rfl⟩ := Op.except_map_eq_ok.1 hd
      rw [(dup_eq_ok.1 hd').2]
    cases f with
    | stdin | stdout | stderr =>
      obtain ⟨rfl, -⟩ | ⟨y, rfl, hy⟩ := hx
      · rfl
      · obtain rfl := Except.ok.inj hy
        rfl
    | file d | pipeReader d | pipeWriter d =>
      obtain ⟨-, hy⟩ | ⟨y, rfl, hy⟩ := hx
      · exact absurd hy (hdup d)
      · obtain rfl := hfile d y hy
        rfl
    | stream id d =>
      obtain ⟨-, hy⟩ | ⟨y, rfl, hy⟩ := hx
      · cases hy
      · obtain rfl := Except.ok.inj hy
        rfl

theorem stdFile_iff {fd : ShellFd} {kind : OpenFile δ → Bool} {x : Option (Stdio δ)}
    (hkind : ∀ f, kind f = true → f.toStdio full = .ok .inherit)
    (hfd : ∃ d, p.inherited fd = some d) (h : setUpStd full params shell fd kind = .ok x) :
    AsHad p (params.tryFd shell fd) (stdFile p fd x) ↔
      ∃ f, params.tryFd shell fd = some f ∧ f.Keeps p fd := by
  obtain ⟨i, hi⟩ := hfd
  rw [stdFile_of_setUp hkind h]
  rcases params.tryFd shell fd with _ | f
  · simp [AsHad, hi]
  · cases f <;> simp [AsHad, OpenFile.refers, OpenFile.Keeps, hi, eq_comm]

theorem mem_otherFiles {fd : ShellFd} {f : OpenFile δ} :
    (fd, f) ∈ otherFiles params shell ↔ params.tryFd shell fd = some f ∧
      fd ≠ 0 ∧ fd ≠ 1 ∧ fd ≠ 2 := by
  rw [otherFiles, List.mem_filter, ExecutionParameters.mem_iterFds]
  simp [and_assoc]

theorem mappings_of_files {files : List (ShellFd × OpenFile δ)} {l : List (ShellFd × δ)}
    (h : (files.mapM fun entry =>
      (entry.2.tryCloneToOwned p full).map fun parentFd => (entry.1, parentFd)) = .ok l) :
    l.map Prod.fst = files.map Prod.fst ∧
      ∀ fd f, (fd, f) ∈ files → ∃ d, f.refers p = some d ∧ (fd, d) ∈ l := by
  induction files generalizing l with
  | nil =>
    obtain rfl := Except.ok.inj h
    exact ⟨rfl, fun fd f hf => absurd hf List.not_mem_nil⟩
  | cons entry files ih =>
    rw [List.mapM_cons] at h
    obtain ⟨m, hm, h⟩ := Op.except_bind_eq_ok.1 h
    obtain ⟨l', hl', h⟩ := Op.except_bind_eq_ok.1 h
    obtain rfl := Except.ok.inj h
    obtain ⟨d, hd, rfl⟩ := Op.except_map_eq_ok.1 hm
    obtain ⟨hkeys, hmem⟩ := ih hl'
    refine ⟨by rw [List.map_cons, List.map_cons, hkeys], ?_⟩
    intro fd f hf
    rcases List.mem_cons.1 hf with rfl | hf
    · exact ⟨d, refers_of_clone hd, List.mem_cons_self⟩
    · obtain ⟨d', hd', hl⟩ := hmem fd f hf
      exact ⟨d', hd', List.mem_cons_of_mem _ hl⟩

/-- **Injection.** A descriptor other than the standard three is the command's where the command has
it, and every other one is left. -/
theorem injected (hmapper : mapper.Maps) {g : FdTable δ → FdTable δ}
    (h : injectFds p full mapper (otherFiles params shell) = .ok g) (t : FdTable δ) (fd : ShellFd) :
    (∀ f, (fd, f) ∈ otherFiles params shell → AsHad p (some f) (g t fd)) ∧
      ((∀ f, (fd, f) ∉ otherFiles params shell) → g t fd = t fd) := by
  obtain ⟨l, hl, h⟩ := Op.except_bind_eq_ok.1 h
  obtain ⟨hkeys, hmem⟩ := mappings_of_files hl
  have hg : mapper l = some g := by
    split at h
    · obtain rfl := Except.ok.inj h
      assumption
    · cases h
  have hnodup : (l.map Prod.fst).Nodup := by
    rw [hkeys]
    exact ExecutionParameters.nodup_iterFds.sublist (List.filter_sublist.map Prod.fst)
  constructor
  · intro f hf
    obtain ⟨d, hd, hl⟩ := hmem fd f hf
    exact ⟨d, hd, hmapper.mapped hg hl hnodup⟩
  · intro hnot
    refine hmapper.kept hg ?_
    rw [hkeys, List.mem_map]
    rintro ⟨⟨_, f⟩, hf, rfl⟩
    exact hnot f hf

/-- **Descriptors of a child.** A child has the descriptors of its command, each open on the same
file and no others, exactly where the standard ones keep and nothing leaks; and the files listed for
it are those the command has open. -/
theorem sameFds_iff (hmapper : mapper.Maps) {cmd : FdCommand δ}
    (h : setUpFds p full mapper params shell = .ok cmd) :
    (SameFds p params shell (cmd.child p) ∧
      ∀ fd f, (fd, f) ∈ params.iterFds shell ↔ params.tryFd shell fd = some f) ↔
    KeepsFds p params shell := by
  obtain ⟨stdin, hin, h⟩ := Op.except_bind_eq_ok.1 h
  obtain ⟨stdout, hout, h⟩ := Op.except_bind_eq_ok.1 h
  obtain ⟨stderr, herr, h⟩ := Op.except_bind_eq_ok.1 h
  obtain ⟨g, hg, h⟩ := Op.except_bind_eq_ok.1 h
  obtain rfl := Except.ok.inj h
  have hin := stdFile_iff (p := p) (fun | .stdin, _ => rfl) ⟨_, rfl⟩ hin
  have hout := stdFile_iff (p := p) (fun | .stdout, _ => rfl) ⟨_, rfl⟩ hout
  have herr := stdFile_iff (p := p) (fun | .stderr, _ => rfl) ⟨_, rfl⟩ herr
  rw [and_iff_left fun _ _ => ExecutionParameters.mem_iterFds]
  generalize hcmd : (⟨stdin, stdout, stderr, g⟩ : FdCommand δ) = cmd
  have hchild : ∀ fd, cmd.child p fd = g (cmd.started p) fd := fun _ => by rw [← hcmd]; rfl
  have hstd : ∀ fd, fd = 0 ∨ fd = 1 ∨ fd = 2 →
      (AsHad p (params.tryFd shell fd) (cmd.child p fd) ↔
        ∃ f, params.tryFd shell fd = some f ∧ f.Keeps p fd) := by
    intro fd hfd
    rw [hchild, (injected hmapper hg _ fd).2 fun f hf => ?_, ← hcmd]
    · rcases hfd with rfl | rfl | rfl
      · exact hin
      · exact hout
      · exact herr
    · obtain ⟨-, h0, h1, h2⟩ := mem_otherFiles.1 hf
      exact hfd.elim h0 fun h => h.elim h1 h2
  have hother : ∀ fd, fd ≠ 0 → fd ≠ 1 → fd ≠ 2 →
      (AsHad p (params.tryFd shell fd) (cmd.child p fd) ↔
        (params.tryFd shell fd = none → p.others fd = none)) := by
    intro fd h0 h1 h2
    obtain ⟨hmapped, hkept⟩ := injected hmapper hg (cmd.started p) fd
    rw [hchild]
    cases hf : params.tryFd shell fd with
    | some f => exact iff_of_true (hmapped f (mem_otherFiles.2 ⟨hf, h0, h1, h2⟩)) (by simp)
    | none =>
      rw [hkept fun f hmem => by simp [(mem_otherFiles.1 hmem).1] at hf, FdCommand.started,
        if_neg h0, if_neg h1, if_neg h2]
      simp [AsHad]
  constructor
  · intro hsame
    exact ⟨fun fd hfd => (hstd fd hfd).1 (hsame fd),
      fun fd h0 h1 h2 => (hother fd h0 h1 h2).1 (hsame fd)⟩
  · rintro ⟨hkeeps, hleak⟩ fd
    by_cases hfd : fd = 0 ∨ fd = 1 ∨ fd = 2
    · exact (hstd fd hfd).2 (hkeeps fd hfd)
    · rw [not_or, not_or] at hfd
      exact (hother fd hfd.1 hfd.2.1 hfd.2.2).2 (hleak fd hfd.1 hfd.2.1 hfd.2.2)

end Child

/-! ## A duplicated standard descriptor -/

def threeFiles : Process Nat := ⟨10, 11, 12, fun _ => none⟩

/-- `command_fds`, refusing two mappings of one number. -/
def mapFds : FdMapper δ := fun l =>
  if (l.map Prod.fst).Nodup then
    some fun t => l.foldr (fun m t => Function.update t m.1 (some (.of m.2))) t
  else none

theorem maps_mapFds : (mapFds : FdMapper δ).Maps where
  mapped := by
    intro l g t fd d hg hmem hnodup
    obtain rfl := Option.some.inj ((if_pos hnodup).symm.trans hg)
    clear hg
    beta_reduce
    induction l with
    | nil => cases hmem
    | cons m l ih =>
      rw [List.map_cons, List.nodup_cons] at hnodup
      rw [List.foldr_cons]
      rcases List.mem_cons.1 hmem with rfl | hmem
      · rw [Function.update_self]
      · have hne : fd ≠ m.1 := fun h => hnodup.1 (h ▸ List.mem_map_of_mem hmem)
        rw [Function.update_of_ne hne]
        exact ih hmem hnodup.2
  kept := by
    intro l g t fd hg hnot
    obtain ⟨-, hsome⟩ := Option.ite_none_right_eq_some.1 hg
    obtain rfl := Option.some.inj hsome
    clear hg hsome
    beta_reduce
    induction l with
    | nil => rfl
    | cons m l ih =>
      rw [List.map_cons, List.mem_cons, not_or] at hnot
      rw [List.foldr_cons, Function.update_of_ne hnot.1]
      exact ih hnot.2

/-- The table of a command run with `2>&1`. -/
def errToOut : ExecutionParameters Nat := (⟨.empty⟩ : ExecutionParameters Nat).setFd 2 .stdout

/-- **Duplicated.** Under `2>&1` the child still has its standard error where the process has it. -/
theorem errToOut_lost : ∃ cmd, setUpFds threeFiles (fun _ => false) mapFds errToOut .new = .ok cmd ∧
    errToOut.tryFd .new 2 = some .stdout ∧ cmd.child threeFiles 2 = some (.of 12) ∧
    ¬ SameFds threeFiles errToOut .new (cmd.child threeFiles) := by
  refine ⟨_, rfl, rfl, rfl, fun hsame => ?_⟩
  obtain ⟨d, hd, hchild⟩ := hsame 2
  cases hd
  cases hchild

/-- The table of a command run with `3>&1 2>file`. -/
def moved : ExecutionParameters Nat :=
  ((⟨.empty⟩ : ExecutionParameters Nat).setFd 3 .stdout).setFd 2 (.file 20)

theorem moved_kept : ∃ cmd, setUpFds threeFiles (fun _ => false) mapFds moved .new = .ok cmd ∧
    SameFds threeFiles moved .new (cmd.child threeFiles) := by
  have hcmd : ∃ cmd, setUpFds threeFiles (fun _ => false) mapFds moved .new = .ok cmd := ⟨_, rfl⟩
  obtain ⟨cmd, hcmd⟩ := hcmd
  refine ⟨cmd, hcmd, ((sameFds_iff maps_mapFds hcmd).2 ⟨?_, fun _ _ _ _ _ => rfl⟩).1⟩
  rintro fd (rfl | rfl | rfl)
  · exact ⟨.stdin, rfl, rfl⟩
  · exact ⟨.stdout, rfl, rfl⟩
  · exact ⟨.file 20, rfl, trivial⟩

end Seahaven.Shell
