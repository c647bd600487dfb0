import Mathlib.Data.List.Induction
import Seahaven.Shell.OpenFiles

/-!
# The numbers that open files are added under

A new open file is added under the first number that has no entry. A number that was closed keeps
one, so it is passed over.

1. `OpenFiles.add`: the search for a number.
2. `TableOp`: the operations on a table, and what a sequence of them leaves.
3. `closed_iff`: the numbers with an entry that are not open are those that were closed.
4. `allocates_iff`: the sequences in which every file is added under the first number that is not
   open.
-/

namespace Seahaven.Shell

variable {δ : Type}

namespace OpenFiles

/-! ## Adding -/

abbrev firstNonStdioFd : Int := 3

abbrev maxFd : Int := 1024

/-- The loop of `add`, `n` numbers below the maximum. -/
def firstWithoutEntry (t : OpenFiles δ) (fd : Int) : Nat → Option ShellFd
  | 0 => if t.containsFd fd then none else some fd
  | n + 1 => if t.containsFd fd then firstWithoutEntry t (fd + 1) n else some fd

/-- `add`: the number, and the table that is left. There is none if too many files are open. -/
def add (t : OpenFiles δ) (file : OpenFile δ) : Option ShellFd × OpenFiles δ :=
  match t.firstWithoutEntry firstNonStdioFd (maxFd - firstNonStdioFd).toNat with
  | some fd => (some fd, t.setFd fd file)
  | none => (none, t)

def updateFrom (t : OpenFiles δ) (files : List (ShellFd × OpenFile δ)) : OpenFiles δ :=
  files.foldl (fun t file => t.setFd file.1 file.2) t

/-- `From<I>`. -/
def ofFiles (files : List (ShellFd × OpenFile δ)) : OpenFiles δ := empty.updateFrom files

def IsOpen (t : OpenFiles δ) (fd : ShellFd) : Prop := (t.tryFd fd).isSome

/-- The first number, of those a file may be added under, that is not open. -/
structure IsFirstNotOpen (t : OpenFiles δ) (fd : Int) : Prop where
  nonStdio : firstNonStdioFd ≤ fd
  notOpen : ¬t.IsOpen fd
  before : ∀ fd' : Int, firstNonStdioFd ≤ fd' → fd' < fd → t.IsOpen fd'

/-- **Adding.** A file is added under the first number that is not open; that fails only if there is
none up to the maximum. -/
structure Allocates (t : OpenFiles δ) (file : OpenFile δ) : Prop where
  first : ∀ fd, (t.add file).1 = some fd → t.IsFirstNotOpen fd
  full : (t.add file).1 = none → ∀ fd : Int, firstNonStdioFd ≤ fd → fd ≤ maxFd → t.IsOpen fd

end OpenFiles

/-! ## Operations -/

/-- An operation on a table. -/
inductive TableOp (δ : Type)
  | add (file : OpenFile δ)
  | setFd (fd : ShellFd) (file : OpenFile δ)
  | removeFd (fd : ShellFd)
  | updateFrom (files : List (ShellFd × OpenFile δ))

namespace OpenFiles

def apply (t : OpenFiles δ) : TableOp δ → OpenFiles δ
  | .add file => (t.add file).2
  | .setFd fd file => t.setFd fd file
  | .removeFd fd => t.removeFd fd
  | .updateFrom files => t.updateFrom files

def run (t : OpenFiles δ) (ops : List (TableOp δ)) : OpenFiles δ := ops.foldl apply t

theorem run_concat (t : OpenFiles δ) (ops : List (TableOp δ)) (op : TableOp δ) :
    t.run (ops ++ [op]) = (t.run ops).apply op := by
  simp [run]

/-! ## Entries -/

def Closed (t : OpenFiles δ) (fd : ShellFd) : Prop := t.containsFd fd = true ∧ ¬t.IsOpen fd

variable {t : OpenFiles δ}

variable {fd : ShellFd}

theorem closed_iff_lookup : t.Closed fd ↔ t.files.lookup fd = some none := by
  unfold Closed IsOpen tryFd containsFd
  cases t.files.lookup fd with
  | none => simp
  | some entry => cases entry <;> simp

theorem contains_of_isOpen (h : t.IsOpen fd) : t.containsFd fd = true := by
  unfold IsOpen tryFd at h
  unfold containsFd
  cases hlookup : t.files.lookup fd with
  | none =>
    rw [hlookup] at h
    simp at h
  | some entry => rfl

theorem lookup_setFd (t : OpenFiles δ) (fd fd' : ShellFd) (file : OpenFile δ) :
    (t.setFd fd file).files.lookup fd' =
      if fd' = fd then some (some file) else t.files.lookup fd' := by
  unfold setFd
  split_ifs with h
  · rw [h, AList.lookup_insert]
  · rw [AList.lookup_insert_ne h]

theorem lookup_removeFd (t : OpenFiles δ) (fd fd' : ShellFd) :
    (t.removeFd fd).files.lookup fd' = if fd' = fd then some none else t.files.lookup fd' := by
  unfold removeFd
  split_ifs with h
  · rw [h, AList.lookup_insert]
  · rw [AList.lookup_insert_ne h]

variable {file : OpenFile δ}

theorem closed_setFd {fd' : ShellFd} :
    (t.setFd fd file).Closed fd' ↔ fd' ≠ fd ∧ t.Closed fd' := by
  rw [closed_iff_lookup, closed_iff_lookup, lookup_setFd]
  split_ifs with h <;> simp [h]

theorem closed_updateFrom {files : List (ShellFd × OpenFile δ)}
    (h : (t.updateFrom files).Closed fd) : t.Closed fd := by
  unfold updateFrom at h
  induction files generalizing t with
  | nil => exact h
  | cons file files ih => exact (closed_setFd.1 (ih h)).2

theorem contains_setFd {fd' : ShellFd} (h : t.containsFd fd' = true) :
    (t.setFd fd file).containsFd fd' = true := by
  unfold containsFd at h ⊢
  rw [lookup_setFd]
  split_ifs
  · rfl
  · exact h

theorem contains_apply (op : TableOp δ) (h : t.containsFd fd = true) :
    (t.apply op).containsFd fd = true := by
  cases op with
  | add file =>
    show (t.add file).2.containsFd fd = true
    unfold add
    split
    · exact contains_setFd h
    · exact h
  | setFd fd' file => exact contains_setFd h
  | removeFd fd' =>
    show ((t.removeFd fd').files.lookup fd).isSome = true
    rw [lookup_removeFd]
    split_ifs
    · rfl
    · exact h
  | updateFrom files =>
    show (t.updateFrom files).containsFd fd = true
    unfold updateFrom
    induction files generalizing t with
    | nil => exact h
    | cons file files ih => exact ih (contains_setFd h)

theorem closed_apply {op : TableOp δ} (h : (t.apply op).Closed fd) :
    op = .removeFd fd ∨ t.Closed fd := by
  cases op with
  | add file =>
    right
    have hadd : (t.add file).2.Closed fd := h
    unfold add at hadd
    split at hadd
    · exact (closed_setFd.1 hadd).2
    · exact hadd
  | setFd fd' file => exact .inr (closed_setFd.1 h).2
  | removeFd fd' =>
    rw [closed_iff_lookup] at h ⊢
    have hlookup : (t.removeFd fd').files.lookup fd = some none := h
    rw [lookup_removeFd] at hlookup
    split_ifs at hlookup with heq
    · exact .inl (congrArg TableOp.removeFd heq.symm)
    · exact .inr hlookup
  | updateFrom files => exact .inr (closed_updateFrom h)

theorem closed_iff {files : List (ShellFd × OpenFile δ)} {ops : List (TableOp δ)} :
    ((ofFiles files).run ops).Closed fd ↔
      .removeFd fd ∈ ops ∧ ¬((ofFiles files).run ops).IsOpen fd := by
  constructor
  · refine fun h => ⟨?_, h.2⟩
    induction ops using List.reverseRecOn with
    | nil =>
      have hempty : (empty : OpenFiles δ).Closed fd := closed_updateFrom h
      rw [closed_iff_lookup] at hempty
      cases hempty
    | append_singleton ops op ih =>
      rw [run_concat] at h
      rcases closed_apply h with rfl | hbefore
      · exact List.mem_append_right _ (List.mem_singleton_self _)
      · exact List.mem_append_left _ (ih hbefore)
  · rintro ⟨hmem, hopen⟩
    refine ⟨?_, hopen⟩
    clear hopen
    induction ops using List.reverseRecOn with
    | nil => cases hmem
    | append_singleton ops op ih =>
      rw [run_concat]
      rcases List.mem_append.1 hmem with hmem | hmem
      · exact contains_apply op (ih hmem)
      · rw [← List.mem_singleton.1 hmem]
        show (((ofFiles files).run ops).removeFd fd).containsFd fd = true
        unfold containsFd
        rw [lookup_removeFd, if_pos rfl]
        rfl

/-! ## The search -/

theorem firstWithoutEntry_some {fd fd' : Int} {n : Nat}
    (h : t.firstWithoutEntry fd n = some fd') :
    fd ≤ fd' ∧ fd' ≤ fd + n ∧ t.containsFd fd' = false ∧
      ∀ k : Int, fd ≤ k → k < fd' → t.containsFd k = true := by
  induction n generalizing fd with
  | zero =>
    unfold firstWithoutEntry at h
    split_ifs at h with hcontains
    cases h
    exact ⟨Int.le_refl _, by omega, by simpa using hcontains, fun k hk hlt => by omega⟩
  | succ n ih =>
    unfold firstWithoutEntry at h
    split_ifs at h with hcontains
    · obtain ⟨hle, hup, hfree, hbefore⟩ := ih h
      refine ⟨by omega, by push_cast; omega, hfree, fun k hk hlt => ?_⟩
      by_cases heq : k = fd
      · rw [heq]
        exact hcontains
      · exact hbefore k (by omega) hlt
    · cases h
      exact ⟨Int.le_refl _, by omega, by simpa using hcontains, fun k hk hlt => by omega⟩

theorem firstWithoutEntry_none {fd : Int} {n : Nat} (h : t.firstWithoutEntry fd n = none) :
    ∀ k : Int, fd ≤ k → k ≤ fd + n → t.containsFd k = true := by
  induction n generalizing fd with
  | zero =>
    unfold firstWithoutEntry at h
    split_ifs at h with hcontains
    intro k hk hle
    obtain rfl : k = fd := by omega
    exact hcontains
  | succ n ih =>
    unfold firstWithoutEntry at h
    split_ifs at h with hcontains
    intro k hk hle
    by_cases heq : k = fd
    · rw [heq]
      exact hcontains
    · exact ih h k (by omega) (by push_cast at hle; omega)

theorem add_some {fd : Int} (h : (t.add file).1 = some fd) :
    t.firstWithoutEntry firstNonStdioFd (maxFd - firstNonStdioFd).toNat = some fd := by
  unfold add at h
  split at h
  · rename_i hsearch
    rw [hsearch]
    exact h
  · cases h

theorem add_none (h : (t.add file).1 = none) :
    t.firstWithoutEntry firstNonStdioFd (maxFd - firstNonStdioFd).toNat = none := by
  unfold add at h
  split at h
  · cases h
  · assumption

theorem exists_isFirstNotOpen {fd : Int} (hfd : firstNonStdioFd ≤ fd) (h : ¬t.IsOpen fd) :
    ∃ fd', fd' ≤ fd ∧ t.IsFirstNotOpen fd' := by
  induction hn : (fd - firstNonStdioFd).toNat using Nat.strong_induction_on generalizing fd with
  | _ n ih =>
    by_cases hbefore : ∀ fd', firstNonStdioFd ≤ fd' → fd' < fd → t.IsOpen fd'
    · exact ⟨fd, Int.le_refl _, hfd, h, hbefore⟩
    · push Not at hbefore
      obtain ⟨fd', hle, hlt, hopen⟩ := hbefore
      obtain ⟨first, hfirst, hspec⟩ := ih (fd' - firstNonStdioFd).toNat (by omega) hle hopen rfl
      exact ⟨first, by omega, hspec⟩

theorem IsFirstNotOpen.unique {fd fd' : Int} (h : t.IsFirstNotOpen fd)
    (h' : t.IsFirstNotOpen fd') : fd = fd' := by
  have hle : ¬fd < fd' := fun hlt => h.notOpen (h'.before fd h.nonStdio hlt)
  have hge : ¬fd' < fd := fun hlt => h'.notOpen (h.before fd' h'.nonStdio hlt)
  omega

theorem allocates_state_iff :
    t.Allocates file ↔ ∀ fd : Int, t.IsFirstNotOpen fd → fd ≤ maxFd → ¬t.Closed fd := by
  constructor
  · intro h fd hfirst hmax hclosed
    cases hadd : (t.add file).1 with
    | none => exact hfirst.notOpen (h.full hadd fd hfirst.nonStdio hmax)
    | some fd' =>
      obtain rfl := hfirst.unique (h.first fd' hadd)
      obtain ⟨-, -, hfree, -⟩ := firstWithoutEntry_some (add_some hadd)
      rw [hclosed.1] at hfree
      cases hfree
  · intro h
    have hopen : ∀ bound : Int, bound ≤ maxFd →
        (∀ k : Int, firstNonStdioFd ≤ k → k ≤ bound → t.containsFd k = true) →
          ∀ k : Int, firstNonStdioFd ≤ k → k ≤ bound → t.IsOpen k := by
      intro bound hbound hcontains k hk hle
      by_contra hnot
      obtain ⟨first, hfirst, hspec⟩ := exists_isFirstNotOpen hk hnot
      exact h first hspec (by omega)
        ⟨hcontains first hspec.nonStdio (by omega), hspec.notOpen⟩
    constructor
    · intro fd hadd
      obtain ⟨hle, hup, hfree, hbefore⟩ := firstWithoutEntry_some (add_some hadd)
      refine ⟨hle, fun hisOpen => ?_, fun k hk hlt => ?_⟩
      · rw [contains_of_isOpen hisOpen] at hfree
        cases hfree
      · exact hopen (fd - 1) (by omega) (fun k hk hle => hbefore k hk (by omega)) k hk (by omega)
    · intro hadd fd hfd hmax
      exact hopen maxFd (Int.le_refl _) (firstWithoutEntry_none (add_none hadd)) fd hfd hmax

/-- **The numbers of files.** Along a sequence of operations every file is added as it should be if
and only if, where a file is added, the first number that is not open has never been closed. -/
theorem allocates_iff (files : List (ShellFd × OpenFile δ)) (ops : List (TableOp δ)) :
    (∀ before file after, ops = before ++ .add file :: after →
        ((ofFiles files).run before).Allocates file) ↔
      ∀ before file after, ops = before ++ .add file :: after →
        ∀ fd : Int, ((ofFiles files).run before).IsFirstNotOpen fd → fd ≤ maxFd →
          .removeFd fd ∉ before := by
  refine forall_congr' fun before => forall_congr' fun file => forall_congr' fun after =>
    imp_congr_right fun _ => ?_
  rw [allocates_state_iff]
  refine forall_congr' fun fd => imp_congr_right fun hfirst => imp_congr_right fun _ => ?_
  rw [closed_iff]
  exact not_congr (and_iff_left hfirst.notOpen)

/-- A file is added under `3` and closed; the next one is added under `4`. -/
theorem not_allocates_reused : ¬(((ofFiles [] : OpenFiles Unit).run
    [.add .stdin, .removeFd 3]).Allocates .stdout) := by
  intro h
  have hfirst := h.first 4 rfl
  have hopen : ((ofFiles [] : OpenFiles Unit).run [.add .stdin, .removeFd 3]).IsOpen 3 :=
    hfirst.before 3 (by decide) (by decide)
  cases hopen

end OpenFiles

end Seahaven.Shell
