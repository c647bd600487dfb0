import Mathlib.Order.Defs.Unbundled

/-!
# Stateful computations that may fail

A computation reads and changes a state, and answers or fails. What it changed before it failed
stays changed. Two kinds of rule serve the proofs about such computations:

1. `Keeps R x`: whatever `x` answers, the state it leaves is related by `R` to the one it found. For
   a reflexive and transitive `R` this composes along the computation.
2. `Along ok step s as`: a run of steps, each of which meets a condition where it is taken. An
   invariant that every such step keeps holds at the end of the run.
-/

/-- A computation over `σ` that answers an `α` or fails with an `ε`. -/
def Op (σ ε α : Type) := σ → Except ε α × σ

namespace Op

variable {σ ε α β : Type}

instance : Monad (Op σ ε) where
  pure a := fun s => (.ok a, s)
  bind x f := fun s =>
    match x s with
    | (.ok a, s') => f a s'
    | (.error e, s') => (.error e, s')

def read (f : σ → Except ε α) : Op σ ε α := fun s => (f s, s)

def check (x : Except ε α) : Op σ ε α := fun s => (x, s)

def change (f : σ → Except ε (α × σ)) : Op σ ε α := fun s =>
  match f s with
  | .ok (a, s') => (.ok a, s')
  | .error e => (.error e, s)

def attempt (x : Op σ ε α) : Op σ ε (Except ε α) := fun s => (.ok (x s).1, (x s).2)

/-! ## One computation after another -/

variable {b : β}

theorem except_bind_eq_ok {x : Except ε α} {f : α → Except ε β} :
    (x >>= f) = .ok b ↔ ∃ a, x = .ok a ∧ f a = .ok b := by
  cases x with
  | error e => simp [bind, Except.bind]
  | ok a => simp [bind, Except.bind]

theorem except_map_eq_ok {x : Except ε α} {f : α → β} :
    x.map f = .ok b ↔ ∃ a, x = .ok a ∧ f a = b := by
  cases x with
  | error e => simp [Except.map]
  | ok a => simp [Except.map]

variable {a : α}

theorem toOption_eq_some {x : Except ε α} : x.toOption = some a ↔ x = .ok a := by
  cases x <;> simp [Except.toOption]

@[simp] theorem pure_apply (a : α) (s : σ) : (pure a : Op σ ε α) s = (.ok a, s) := rfl

@[simp] theorem read_apply (f : σ → Except ε α) (s : σ) : read f s = (f s, s) := rfl

@[simp] theorem check_apply (x : Except ε α) (s : σ) : check x s = (x, s) := rfl

@[simp] theorem attempt_apply (x : Op σ ε α) (s : σ) : attempt x s = (.ok (x s).1, (x s).2) := rfl

variable {x : Op σ ε α} {f : α → Op σ ε β} {s' : σ}

theorem bind_ok {s : σ} (h : x s = (.ok a, s')) :
    (x >>= f) s = f a s' := by
  change (match x s with
    | (.ok a, s') => f a s'
    | (.error e, s') => (.error e, s')) = _
  rw [h]

variable {e : ε}

theorem bind_error {s : σ}
    (h : x s = (.error e, s')) : (x >>= f) s = (.error e, s') := by
  change (match x s with
    | (.ok a, s') => f a s'
    | (.error e, s') => (.error e, s')) = _
  rw [h]

theorem bind_eq_ok {s : σ} :
    (x >>= f) s = (.ok b, s') ↔ ∃ a s₁, x s = (.ok a, s₁) ∧ f a s₁ = (.ok b, s') := by
  cases h : x s with
  | mk r s₁ =>
    cases r with
    | error e => simp [bind_error h]
    | ok a =>
      rw [bind_ok h]
      constructor
      · intro hf
        exact ⟨a, s₁, rfl, hf⟩
      · rintro ⟨a', s₁', ha, hf⟩
        obtain ⟨hval, hstate⟩ := Prod.mk.inj ha
        rw [Except.ok.inj hval, hstate]
        exact hf

theorem bind_assoc {γ : Type} (x : Op σ ε α) (f : α → Op σ ε β) (g : β → Op σ ε γ) :
    (x >>= f) >>= g = x >>= fun a => f a >>= g := by
  funext s
  cases h : x s with
  | mk r s₁ =>
    cases r with
    | error e => rw [bind_error h, bind_error (bind_error h)]
    | ok a =>
      rw [bind_ok h]
      cases h' : f a s₁ with
      | mk r' s₂ =>
        have hx : (x >>= f) s = (r', s₂) := (bind_ok h).trans h'
        cases r' with
        | error e => rw [bind_error hx, bind_error h']
        | ok b => rw [bind_ok hx, bind_ok h']

theorem map_apply (f : α → β) (x : Op σ ε α) (s : σ) :
    (f <$> x) s = ((x s).1.map f, (x s).2) := by
  change (match x s with
    | (.ok a, s') => (.ok (f a), s')
    | (.error e, s') => (.error e, s') : Except ε β × σ) = _
  rcases x s with ⟨_ | _, _⟩ <;> rfl

variable {g : σ → Except ε α}

theorem read_bind_ok {s : σ} (h : g s = .ok a) :
    (read g >>= f) s = f a s := bind_ok (by rw [read_apply, h])

theorem read_bind_error {s : σ}
    (h : g s = .error e) : (read g >>= f) s = (.error e, s) := bind_error (by rw [read_apply, h])

theorem read_eq_ok {f : σ → Except ε α} {s : σ} :
    read f s = (.ok a, s') ↔ f s = .ok a ∧ s = s' := by
  rw [read_apply, Prod.mk.injEq]

@[simp] theorem check_ok_bind : (check (.ok a) >>= f) = f a := rfl

@[simp] theorem check_error_bind : (check (.error e) >>= f) = check (.error e) := rfl

theorem change_ok {f : σ → Except ε (α × σ)} {s : σ} (h : f s = .ok (a, s')) :
    change f s = (.ok a, s') := by rw [change, h]

theorem change_error {f : σ → Except ε (α × σ)} {s : σ} (h : f s = .error e) :
    change f s = (.error e, s) := by rw [change, h]

theorem change_eq_ok {f : σ → Except ε (α × σ)} {s : σ} :
    change f s = (.ok a, s') ↔ f s = .ok (a, s') := by
  cases h : f s with
  | error e => simp [change_error h]
  | ok y =>
    obtain ⟨b, s₁⟩ := y
    simp [change_ok h]

/-! ## What a computation keeps -/

/-- Whatever `x` answers from `s`, the state it leaves is related to `s`. -/
def KeepsAt (R : σ → σ → Prop) (x : Op σ ε α) (s : σ) : Prop := R s (x s).2

/-- `x` keeps `R` from every state. -/
def Keeps (R : σ → σ → Prop) (x : Op σ ε α) : Prop := ∀ s, KeepsAt R x s

section Keeps

variable {R : σ → σ → Prop} {s : σ}

theorem keepsAt_pure [Std.Refl R] (a : α) : KeepsAt R (pure a : Op σ ε α) s := refl_of R s

theorem keepsAt_read [Std.Refl R] (f : σ → Except ε α) : KeepsAt R (read f) s := refl_of R s

theorem keepsAt_check [Std.Refl R] (x : Except ε α) : KeepsAt R (check x) s := refl_of R s

theorem keepsAt_change [Std.Refl R] {f : σ → Except ε (α × σ)}
    (h : ∀ a s', f s = .ok (a, s') → R s s') : KeepsAt R (change f) s := by
  cases hf : f s with
  | error e =>
    rw [KeepsAt, change_error hf]
    exact refl_of R s
  | ok y =>
    obtain ⟨a, s'⟩ := y
    rw [KeepsAt, change_ok hf]
    exact h a s' hf

theorem keepsAt_attempt : KeepsAt R (attempt x) s ↔ KeepsAt R x s := Iff.rfl

/-- **Sequence.** What follows has to keep `R` only from where, and on what, the first ended. -/
theorem keepsAt_bind [IsTrans σ R] (hx : KeepsAt R x s)
    (hf : ∀ a s', x s = (.ok a, s') → KeepsAt R (f a) s') : KeepsAt R (x >>= f) s := by
  cases h : x s with
  | mk r s' =>
    rw [KeepsAt, h] at hx
    cases r with
    | error e =>
      rw [KeepsAt, bind_error h]
      exact hx
    | ok a =>
      rw [KeepsAt, bind_ok h]
      exact trans_of R hx (hf a s' h)

theorem keepsAt_read_bind [Std.Refl R]
    (hf : ∀ a, g s = .ok a → KeepsAt R (f a) s) : KeepsAt R (read g >>= f) s := by
  cases h : g s with
  | error e =>
    rw [KeepsAt, read_bind_error h]
    exact refl_of R s
  | ok a =>
    rw [KeepsAt, read_bind_ok h]
    exact hf a h

theorem keepsAt_check_bind [Std.Refl R] {x : Except ε α}
    (hf : ∀ a, x = .ok a → KeepsAt R (f a) s) : KeepsAt R (check x >>= f) s :=
  keepsAt_read_bind (g := fun _ => x) hf

end Keeps

/-! ## Reading -/

/-- `x` leaves every state as it found it. -/
def Reads (x : Op σ ε α) : Prop := ∀ s, (x s).2 = s

theorem Reads.keepsAt {R : σ → σ → Prop} [Std.Refl R] (hx : Reads x) (s : σ) :
    KeepsAt R x s := by
  rw [KeepsAt, hx s]
  exact refl_of R s

theorem reads_pure (a : α) : Reads (pure a : Op σ ε α) := fun _ => rfl

theorem reads_read (f : σ → Except ε α) : Reads (read f) := fun _ => rfl

theorem reads_check (x : Except ε α) : Reads (check x : Op σ ε α) := fun _ => rfl

theorem Reads.attempt (hx : Reads x) : Reads (attempt x) := hx

theorem Reads.bind (hx : Reads x) (hf : ∀ a, Reads (f a)) :
    Reads (x >>= f) := by
  intro s
  cases h : x s with
  | mk r s' =>
    obtain rfl : s' = s := by rw [← hx s, h]
    cases r with
    | error e => rw [bind_error h]
    | ok a => rw [bind_ok h, hf a]

theorem Reads.keepsAt_bind {R : σ → σ → Prop} [Std.Refl R]
    (hx : Reads x) {s : σ} (hf : ∀ a, x s = (.ok a, s) → KeepsAt R (f a) s) :
    KeepsAt R (x >>= f) s := by
  cases h : x s with
  | mk r s' =>
    obtain rfl : s' = s := by rw [← hx s, h]
    cases r with
    | error e =>
      rw [KeepsAt, bind_error h]
      exact refl_of R s'
    | ok a =>
      rw [KeepsAt, bind_ok h]
      exact hf a h

end Op

/-! ## Runs -/

namespace Run

variable {σ α : Type} (step : σ → α → σ)

/-- Every step of the run meets `ok` in the state it is taken from. -/
def Along (ok : σ → α → Prop) : σ → List α → Prop
  | _, [] => True
  | s, a :: as => ok s a ∧ Along ok (step s a) as

variable {step}

/-- **Runs.** What every admitted step keeps holds wherever a run of such steps leads. -/
theorem invariant {ok : σ → α → Prop} {I : σ → Prop}
    (hstep : ∀ s a, I s → ok s a → I (step s a)) {s : σ} {as : List α} (hs : I s)
    (h : Along step ok s as) : I (as.foldl step s) := by
  induction as generalizing s with
  | nil => exact hs
  | cons a as ih => exact ih (hstep s a hs h.1) h.2

theorem along_append {ok : σ → α → Prop} {s : σ} {as bs : List α} :
    Along step ok s (as ++ bs) ↔ Along step ok s as ∧ Along step ok (as.foldl step s) bs := by
  induction as generalizing s with
  | nil => simp [Along]
  | cons a as ih => simp [Along, ih, and_assoc]

end Run
