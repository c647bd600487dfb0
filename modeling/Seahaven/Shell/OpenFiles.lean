import Mathlib.Data.List.AList
import Seahaven.Text

/-!
# Open files of a shell

1. `OpenFiles`: a table of open files by number, with entries that say a number is not in use.
2. `ExecutionParameters`: a command's own table over the one its shell keeps.

What a number is open on is told from `tryFd` alone: `iterFds` lists exactly its answers.
-/

namespace Seahaven.Shell

abbrev ShellFd := Int

/-! ## Tables -/

/-- `OpenFile`. `δ` is what a descriptor refers to: the open files of the host. -/
inductive OpenFile (δ : Type)
  | stdin
  | stdout
  | stderr
  | file (f : δ)
  | pipeReader (r : δ)
  | pipeWriter (w : δ)
  /-- A custom stream, and the descriptor it can be converted to, where it can. -/
  | stream (id : Nat) (fd : Option δ)
  deriving DecidableEq

inductive OpenFileEntry (δ : Type)
  | «open» (f : OpenFile δ)
  | notPresent
  | notSpecified

structure OpenFiles (δ : Type) where
  files : AList fun _ : ShellFd => Option (OpenFile δ)

variable {δ : Type}

variable {fd : ShellFd} {f : OpenFile δ}

namespace OpenFiles

abbrev stdinFd : ShellFd := 0

abbrev stdoutFd : ShellFd := 1

abbrev stderrFd : ShellFd := 2

/-- `OpenFiles::default`. -/
def empty : OpenFiles δ := ⟨∅⟩

/-- `OpenFiles::new`. -/
def new : OpenFiles δ :=
  ⟨((AList.singleton stderrFd (some .stderr)).insert stdoutFd (some .stdout)).insert stdinFd
    (some .stdin)⟩

variable (t : OpenFiles δ)

/-- The table `remove_fd` leaves. -/
def removeFd (fd : ShellFd) : OpenFiles δ := ⟨t.files.insert fd none⟩

def tryFd (fd : ShellFd) : Option (OpenFile δ) := (t.files.lookup fd).bind id

def fdEntry (fd : ShellFd) : OpenFileEntry δ :=
  match t.files.lookup fd with
  | none => .notSpecified
  | some (some f) => .open f
  | some none => .notPresent

def containsFd (fd : ShellFd) : Bool := (t.files.lookup fd).isSome

/-- The table `set_fd` leaves. -/
def setFd (fd : ShellFd) (file : OpenFile δ) : OpenFiles δ := ⟨t.files.insert fd (some file)⟩

def iterFds : List (ShellFd × OpenFile δ) :=
  t.files.entries.filterMap fun e => e.2.map fun f => (e.1, f)

variable {t}

theorem tryFd_eq_some : t.tryFd fd = some f ↔ t.files.lookup fd = some (some f) := by
  simp [tryFd, Option.bind_eq_some_iff]

theorem mem_iterFds : (fd, f) ∈ t.iterFds ↔ t.tryFd fd = some f := by
  rw [tryFd_eq_some, ← Option.mem_def, AList.mem_lookup_iff, iterFds, List.mem_filterMap]
  constructor
  · rintro ⟨⟨fd', entry⟩, hmem, hf⟩
    obtain ⟨f', rfl, hpair⟩ := Option.map_eq_some_iff.1 hf
    obtain ⟨rfl, rfl⟩ := Prod.mk.inj hpair
    exact hmem
  · intro hmem
    exact ⟨⟨fd, some f⟩, hmem, rfl⟩

theorem nodup_iterFds : (t.iterFds.map Prod.fst).Nodup := by
  have hkeys := List.nodupKeys_iff_pairwise.1 t.files.nodupKeys
  rw [List.Nodup, List.pairwise_map, iterFds, List.pairwise_filterMap]
  refine hkeys.imp ?_
  intro e e' hne a ha b hb
  obtain ⟨f, -, rfl⟩ := Option.map_eq_some_iff.1 ha
  obtain ⟨f', -, rfl⟩ := Option.map_eq_some_iff.1 hb
  exact hne

theorem containsFd_eq_false : t.containsFd fd = false ↔ t.files.lookup fd = none := by
  simp [containsFd]

end OpenFiles

/-! ## A command's table over its shell's -/

/-- `ExecutionParameters`, as far as descriptors go. -/
structure ExecutionParameters (δ : Type) where
  openFiles : OpenFiles δ

namespace ExecutionParameters

variable (params : ExecutionParameters δ) (shell : OpenFiles δ)

/-- `ExecutionParameters::try_fd`. The second table is the one of the shell. -/
def tryFd (fd : ShellFd) : Option (OpenFile δ) :=
  match params.openFiles.fdEntry fd with
  | .open f => some f
  | .notPresent => none
  | .notSpecified => shell.tryFd fd

def setFd (fd : ShellFd) (file : OpenFile δ) : ExecutionParameters δ :=
  { params with openFiles := params.openFiles.setFd fd file }

/-- `params.open_files.remove_fd(fd)`. -/
def removeFd (fd : ShellFd) : ExecutionParameters δ :=
  { params with openFiles := params.openFiles.removeFd fd }

/-- `ExecutionParameters::iter_fds`. -/
def iterFds : List (ShellFd × OpenFile δ) :=
  params.openFiles.iterFds ++
    shell.iterFds.filter fun entry => !params.openFiles.containsFd entry.1

variable {params shell}

theorem tryFd_eq (fd : ShellFd) : params.tryFd shell fd =
    ((params.openFiles.files.lookup fd).getD (shell.tryFd fd)) := by
  unfold tryFd OpenFiles.fdEntry
  rcases params.openFiles.files.lookup fd with _ | _ | f <;> rfl

@[simp] theorem tryFd_setFd {n : ShellFd} :
    (params.setFd fd f).tryFd shell n = if n = fd then some f else params.tryFd shell n := by
  rw [tryFd_eq, tryFd_eq, setFd, OpenFiles.setFd]
  split
  · subst n
    rw [AList.lookup_insert, Option.getD_some]
  · rename_i hne
    rw [AList.lookup_insert_ne hne]

@[simp] theorem tryFd_removeFd {n : ShellFd} :
    (params.removeFd fd).tryFd shell n = if n = fd then none else params.tryFd shell n := by
  rw [tryFd_eq, tryFd_eq, removeFd, OpenFiles.removeFd]
  split
  · subst n
    rw [AList.lookup_insert, Option.getD_some]
  · rename_i hne
    rw [AList.lookup_insert_ne hne]

/-- **Listing.** The pairs listed are those on which `tryFd` answers. -/
theorem mem_iterFds : (fd, f) ∈ params.iterFds shell ↔ params.tryFd shell fd = some f := by
  rw [iterFds, List.mem_append, List.mem_filter, OpenFiles.mem_iterFds, OpenFiles.mem_iterFds,
    OpenFiles.tryFd_eq_some, tryFd_eq, Bool.not_eq_true', OpenFiles.containsFd_eq_false]
  rcases params.openFiles.files.lookup fd with _ | _ | g
  · simp
  · simp
  · simp

theorem nodup_iterFds : ((params.iterFds shell).map Prod.fst).Nodup := by
  rw [iterFds, List.map_append, List.nodup_append]
  refine ⟨OpenFiles.nodup_iterFds,
    OpenFiles.nodup_iterFds.sublist (List.filter_sublist.map Prod.fst), ?_⟩
  intro fd hown fd' hshell heq
  subst fd'
  obtain ⟨⟨_, f⟩, hf, rfl⟩ := List.mem_map.1 hown
  obtain ⟨⟨_, g⟩, hg, hfd⟩ := List.mem_map.1 hshell
  have hown := OpenFiles.tryFd_eq_some.1 (OpenFiles.mem_iterFds.1 hf)
  have hnone := (List.mem_filter.1 hg).2
  rw [hfd, Bool.not_eq_true', OpenFiles.containsFd_eq_false, hown] at hnone
  cases hnone

end ExecutionParameters

end Seahaven.Shell
