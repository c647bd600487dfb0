import Mathlib.Data.Sum.Basic
import Seahaven.Lib.Op

/-!
# Computations that follow another

Two computations over one state are compared. The one that is followed logs what it does
(`LoggedOp`), and some entries of a log are `good`.

1. `Follows good R y x`: as long as all that `y` logs is good, `x` leaves the state `y` leaves, and
   answers what `R` relates to the answer of `y` or fails as `y` does.
2. The rules go along the computations: one after another (`Follows.bind`), what is repeated
   (`iterate`, `each`), and what is done about failures (`handle`, `attempt`).
-/

/-- A computation over `σ` that also logs `κ`s. -/
def LoggedOp (κ σ ε α : Type) := σ → Except ε α × σ × List κ

variable {κ σ ε α β γ δ : Type}

/-! ## Repeating -/

/-- Repeats a step until it answers with a result, `n` times at most. -/
def Steps.iterate {m : Type → Type} [Monad m] (out : m β) (step : α → m (α ⊕ β)) : Nat → α → m β
  | 0, _ => out
  | n + 1, a => do
    match ← step a with
    | .inl a => iterate out step n a
    | .inr b => pure b

/-- Takes a step for each member of a list, until one answers with a result. -/
def Steps.each {m : Type → Type} [Monad m] (step : γ → α → m (α ⊕ α)) : List γ → α → m α
  | [], a => pure a
  | c :: cs, a => do
    match ← step c a with
    | .inl a => each step cs a
    | .inr a => pure a

namespace Op

/-- Runs `f` on the failure, if there is one. -/
def handle (f : ε → Op σ ε α) (x : Op σ ε α) : Op σ ε α := fun s =>
  match x s with
  | (.ok a, s') => (.ok a, s')
  | (.error e, s') => f e s'

def unlogged (x : Op σ ε α) : LoggedOp κ σ ε α := fun s => ((x s).1, (x s).2, [])

end Op

variable {a : α} {b : β}

namespace LoggedOp

instance : Monad (LoggedOp κ σ ε) where
  pure a := fun s => (.ok a, s, [])
  bind x f := fun s =>
    match x s with
    | (.ok a, s', l) => ((f a s').1, (f a s').2.1, l ++ (f a s').2.2)
    | (.error e, s', l) => (.error e, s', l)

def note (k : κ) : LoggedOp κ σ ε Unit := fun s => (.ok (), s, [k])

def check (x : Except ε α) : LoggedOp κ σ ε α := fun s => (x, s, [])

def attempt (x : LoggedOp κ σ ε α) : LoggedOp κ σ ε (Except ε α) := fun s =>
  (.ok (x s).1, (x s).2)

/-- Runs `f` on the failure, if there is one. -/
def handle (f : ε → LoggedOp κ σ ε α) (x : LoggedOp κ σ ε α) : LoggedOp κ σ ε α := fun s =>
  match x s with
  | (.ok a, s', l) => (.ok a, s', l)
  | (.error e, s', l) => ((f e s').1, (f e s').2.1, l ++ (f e s').2.2)

variable {x : LoggedOp κ σ ε α} {f : α → LoggedOp κ σ ε β} {s s' : σ} {l : List κ}

theorem bind_ok (h : x s = (.ok a, s', l)) :
    (x >>= f) s = ((f a s').1, (f a s').2.1, l ++ (f a s').2.2) := by
  change (match x s with
    | (.ok a, s', l) => ((f a s').1, (f a s').2.1, l ++ (f a s').2.2)
    | (.error e, s', l) => (.error e, s', l)) = _
  rw [h]

theorem bind_error {e : ε} (h : x s = (.error e, s', l)) : (x >>= f) s = (.error e, s', l) := by
  change (match x s with
    | (.ok a, s', l) => ((f a s').1, (f a s').2.1, l ++ (f a s').2.2)
    | (.error e, s', l) => (.error e, s', l)) = _
  rw [h]

theorem bind_run {s'' : σ}
    {r : Except ε β} {l' : List κ} (hx : x s = (.ok a, s', l)) (hf : f a s' = (r, s'', l')) :
    (x >>= f) s = (r, s'', l ++ l') := by
  rw [bind_ok hx, hf]

theorem bind_fst_eq_ok (h : ((x >>= f) s).1 = .ok b) :
    ∃ a s' l, x s = (.ok a, s', l) ∧ (f a s').1 = .ok b := by
  rcases hx : x s with ⟨_ | a, s', l⟩
  · rw [bind_error hx] at h
    cases h
  · rw [bind_ok hx] at h
    exact ⟨a, s', l, rfl, h⟩

theorem bind_eq_ok : (x >>= f) s = (.ok b, s', l) ↔
      ∃ a s₁ l₁ l₂, x s = (.ok a, s₁, l₁) ∧ f a s₁ = (.ok b, s', l₂) ∧ l = l₁ ++ l₂ := by
  constructor
  · intro h
    rcases hx : x s with ⟨_ | a, s₁, l₁⟩
    · rw [bind_error hx] at h
      cases h
    · rw [bind_ok hx] at h
      rcases hf : f a s₁ with ⟨r, s₂, l₂⟩
      rw [hf] at h
      cases h
      exact ⟨a, s₁, l₁, l₂, rfl, hf, rfl⟩
  · rintro ⟨a, s₁, l₁, l₂, hx, hf, rfl⟩
    exact bind_run hx hf

end LoggedOp

/-! ## Following -/

namespace Op

/-- The same failure, or answers that are related. -/
inductive SameAnswer (R : α → β → Prop) : Except ε α → Except ε β → Prop
  | ok {a : α} {b : β} (h : R a b) : SameAnswer R (.ok a) (.ok b)
  | error (e : ε) : SameAnswer R (.error e) (.error e)

/-- `x` does what `y` does, as long as all that `y` logs is good. -/
def Follows (good : κ → Prop) (R : α → β → Prop) (y : LoggedOp κ σ ε α) (x : Op σ ε β) : Prop :=
  ∀ s, (∀ k ∈ (y s).2.2, good k) → SameAnswer R (y s).1 (x s).1 ∧ (y s).2.1 = (x s).2

section

variable {good : κ → Prop} {R : α → β → Prop} {S : γ → δ → Prop}

theorem follows_check {a : Except ε α} {b : Except ε β} (h : SameAnswer R a b) :
    Follows good R (LoggedOp.check a : LoggedOp κ σ ε α) (Op.check b) := fun _ _ => ⟨h, rfl⟩

theorem follows_fail (e : ε) :
    Follows good R (LoggedOp.check (.error e) : LoggedOp κ σ ε α) (Op.check (.error e)) :=
  follows_check (.error e)

theorem follows_pure (h : R a b) :
    Follows good R (pure a : LoggedOp κ σ ε α) (pure b) := fun _ _ => ⟨.ok h, rfl⟩

theorem follows_unlogged (x : Op σ ε α) :
    Follows good Eq (x.unlogged : LoggedOp κ σ ε α) x := by
  intro s _
  refine ⟨?_, rfl⟩
  change SameAnswer Eq (x s).1 (x s).1
  cases (x s).1 with
  | error e => exact .error e
  | ok a => exact .ok rfl

theorem follows_note {k : κ} (h : good k → R a b) :
    Follows good R (LoggedOp.note k >>= fun _ => pure a : LoggedOp κ σ ε α) (pure b) :=
  fun _ hgood => ⟨.ok (h (hgood k (List.mem_singleton_self k))), rfl⟩

variable {y : LoggedOp κ σ ε α}

theorem Follows.bind {x : Op σ ε β} {g : α → LoggedOp κ σ ε γ}
    {f : β → Op σ ε δ} (h : Follows good R y x)
    (hnext : ∀ a b, R a b → Follows good S (g a) (f b)) :
    Follows good S (y >>= g) (x >>= f) := by
  intro s hgood
  have hagrees := h s
  rcases hy : y s with ⟨_ | a, s', l⟩
  · rw [LoggedOp.bind_error hy] at hgood ⊢
    rw [hy] at hagrees
    obtain ⟨hans, hstate⟩ := hagrees hgood
    rcases hx : x s with ⟨r, s''⟩
    rw [hx] at hans hstate
    cases hans
    rw [Op.bind_error hx]
    exact ⟨.error _, hstate⟩
  · rw [LoggedOp.bind_ok hy] at hgood ⊢
    rw [hy] at hagrees
    obtain ⟨hans, hstate⟩ := hagrees fun k hk => hgood k (List.mem_append_left _ hk)
    rcases hx : x s with ⟨r, s''⟩
    rw [hx] at hans hstate
    cases hstate
    cases hans with
    | ok hab =>
      rw [Op.bind_ok hx]
      exact hnext a _ hab s' fun k hk => hgood k (List.mem_append_right _ hk)

theorem Follows.bind_eq {x : Op σ ε α} {g : α → LoggedOp κ σ ε γ}
    {f : α → Op σ ε δ} (h : Follows good Eq y x) (hnext : ∀ a, Follows good S (g a) (f a)) :
    Follows good S (y >>= g) (x >>= f) := by
  refine h.bind ?_
  rintro a _ rfl
  exact hnext a

theorem Follows.ite {c : Prop} [Decidable c] {y' : LoggedOp κ σ ε α} {x x' : Op σ ε β}
    (ht : c → Follows good R y x) (hf : ¬c → Follows good R y' x') :
    Follows good R (if c then y else y') (if c then x else x') := by
  by_cases hc : c
  · rw [if_pos hc, if_pos hc]
    exact ht hc
  · rw [if_neg hc, if_neg hc]
    exact hf hc

theorem Follows.attempt {x : Op σ ε β} (h : Follows good R y x) :
    Follows good (SameAnswer R) y.attempt (Op.attempt x) := fun s hgood =>
  ⟨.ok (h s hgood).1, (h s hgood).2⟩

theorem Follows.handle {x : Op σ ε β} {g : ε → LoggedOp κ σ ε α}
    {f : ε → Op σ ε β} (h : Follows good R y x) (hfail : ∀ e, Follows good R (g e) (f e)) :
    Follows good R (y.handle g) (Op.handle f x) := by
  intro s hgood
  have hagrees := h s
  unfold LoggedOp.handle Op.handle at *
  rcases hy : y s with ⟨e | a, s', l⟩
  · rw [hy] at hagrees hgood
    obtain ⟨hans, hstate⟩ := hagrees fun k hk => hgood k (List.mem_append_left _ hk)
    rcases hx : x s with ⟨r, s''⟩
    rw [hx] at hans hstate
    cases hstate
    cases hans
    exact hfail e s' fun k hk => hgood k (List.mem_append_right _ hk)
  · rw [hy] at hagrees hgood
    obtain ⟨hans, hstate⟩ := hagrees hgood
    rcases hx : x s with ⟨r, s''⟩
    rw [hx] at hans hstate
    cases hstate
    cases hans with
    | ok hab => exact ⟨.ok hab, rfl⟩

theorem Follows.iterate {g : α → LoggedOp κ σ ε (α ⊕ γ)} {f : β → Op σ ε (β ⊕ δ)}
    {out : LoggedOp κ σ ε γ} {out' : Op σ ε δ} (hout : Follows good S out out')
    (hstep : ∀ a b, R a b → Follows good (Sum.LiftRel R S) (g a) (f b)) (n : Nat)
    (h : R a b) : Follows good S (Steps.iterate out g n a) (Steps.iterate out' f n b) := by
  induction n generalizing a b with
  | zero => exact hout
  | succ n ih =>
    refine (hstep a b h).bind ?_
    rintro _ _ (⟨hab⟩ | ⟨hcd⟩)
    · exact ih hab
    · exact follows_pure hcd

theorem Follows.each {g : γ → α → LoggedOp κ σ ε (α ⊕ α)} {f : γ → β → Op σ ε (β ⊕ β)}
    (hstep : ∀ c a b, R a b → Follows good (Sum.LiftRel R R) (g c a) (f c b)) (cs : List γ)
    (h : R a b) : Follows good R (Steps.each g cs a) (Steps.each f cs b) := by
  induction cs generalizing a b with
  | nil => exact follows_pure h
  | cons c cs ih =>
    refine (hstep c a b h).bind ?_
    rintro _ _ (⟨hab⟩ | ⟨hab⟩)
    · exact ih hab
    · exact follows_pure hab

end

end Op
