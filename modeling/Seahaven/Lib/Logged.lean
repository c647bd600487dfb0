import Mathlib.Data.List.Basic

/-!
# Computations that keep a log

A computation ends in a value or an error, and leaves a log of what happened on the way. Some
entries of a log are acceptable (`ok`) and some errors are fatal (`fatal`): an error that is not
fatal is an answer like another.

`Answers ok fatal x safe r` says exactly when the computation `x` behaves: if `safe` then it ends in
`r` and its log is acceptable, and if not then its log shows it, or it ends in a fatal error. The
rules follow the way `x` is put together.
-/

namespace Seahaven

/-- A computation with a log of `κ`s. -/
def Logged (ε κ α : Type) := Except ε α × List κ

namespace Logged

variable {ε κ α β : Type}

/-- The value `a`, with nothing logged. -/
protected def pure (a : α) : Logged ε κ α := (.ok a, [])

/-- The error `e`, with nothing logged. -/
protected def throw (e : ε) : Logged ε κ α := (.error e, [])

def tell (k : κ) : Logged ε κ Unit := (.ok (), [k])

/-- Ends as `r`, with nothing logged. -/
def lift (r : Except ε α) : Logged ε κ α := (r, [])

protected def bind (x : Logged ε κ α) (f : α → Logged ε κ β) : Logged ε κ β :=
  match x.1 with
  | .error e => (.error e, x.2)
  | .ok a => ((f a).1, x.2 ++ (f a).2)

instance : Monad (Logged ε κ) where
  pure := Logged.pure
  bind := Logged.bind

def result (x : Logged ε κ α) : Except ε α := x.1

def log (x : Logged ε κ α) : List κ := x.2

/-! ## Answers -/

section

variable (ok : κ → Prop) (fatal : ε → Prop)

def Spoiled (x : Logged ε κ α) : Prop :=
  (∃ k ∈ x.log, ¬ok k) ∨ ∃ e, x.result = .error e ∧ fatal e

/-- The computation ends in `r` with an acceptable log if `safe`, and goes wrong if not. -/
structure Answers (x : Logged ε κ α) (safe : Prop) (r : Except ε α) : Prop where
  result_eq : safe → x.result = r
  log_ok : safe → ∀ k ∈ x.log, ok k
  spoiled : ¬safe → x.Spoiled ok fatal

end

section

variable {ok : κ → Prop} {fatal : ε → Prop}

theorem answers_pure (a : α) : Answers ok fatal (pure a : Logged ε κ α) True (.ok a) :=
  ⟨fun _ => rfl, fun _ _ hk => absurd hk List.not_mem_nil, fun h => absurd trivial h⟩

theorem answers_throw (e : ε) :
    Answers ok fatal (Logged.throw e : Logged ε κ α) True (.error e) :=
  ⟨fun _ => rfl, fun _ _ hk => absurd hk List.not_mem_nil, fun h => absurd trivial h⟩

theorem answers_tell (k : κ) : Answers ok fatal (tell k : Logged ε κ Unit) (ok k) (.ok ()) := by
  refine ⟨fun _ => rfl, fun h k' hk => ?_, fun h => .inl ⟨k, List.mem_singleton_self k, h⟩⟩
  rwa [List.mem_singleton.1 hk]

variable {x : Logged ε κ α}

theorem Spoiled.bind (h : x.Spoiled ok fatal) (f : α → Logged ε κ β) :
    (x >>= f).Spoiled ok fatal := by
  obtain ⟨r, l⟩ := x
  rcases h with ⟨k, hk, hbad⟩ | ⟨e, he, hf⟩
  · refine .inl ⟨k, ?_, hbad⟩
    cases r with
    | error e => exact hk
    | ok a => exact List.mem_append_left _ hk
  · cases he
    exact .inr ⟨e, rfl, hf⟩

variable {safe : Prop}

theorem Answers.bind {a : α} (hx : Answers ok fatal x safe (.ok a))
    {f : α → Logged ε κ β} {safe' : Prop} {r : Except ε β}
    (hf : safe → Answers ok fatal (f a) safe' r) :
    Answers ok fatal (x >>= f) (safe ∧ safe') r := by
  have hbind : safe → x >>= f = ((f a).1, x.2 ++ (f a).2) := by
    intro h
    have hr := hx.result_eq h
    obtain ⟨r', l⟩ := x
    cases hr
    rfl
  constructor
  · rintro ⟨h, h'⟩
    rw [hbind h]
    exact (hf h).result_eq h'
  · rintro ⟨h, h'⟩ k hk
    rw [hbind h] at hk
    rcases List.mem_append.1 hk with hk | hk
    · exact hx.log_ok h k hk
    · exact (hf h).log_ok h' k hk
  · intro hn
    by_cases h : safe
    · rw [hbind h]
      rcases (hf h).spoiled fun h' => hn ⟨h, h'⟩ with ⟨k, hk, hbad⟩ | herr
      · exact .inl ⟨k, List.mem_append_right _ hk, hbad⟩
      · exact .inr herr
    · exact (hx.spoiled h).bind f

theorem Answers.bind_error {e : ε}
    (hx : Answers ok fatal x safe (.error e)) (f : α → Logged ε κ β) :
    Answers ok fatal (x >>= f) safe (.error e) := by
  have hbind : safe → x >>= f = (.error e, x.2) := by
    intro h
    have hr := hx.result_eq h
    obtain ⟨r', l⟩ := x
    cases hr
    rfl
  refine ⟨fun h => by rw [hbind h]; rfl, fun h k hk => ?_, fun h => (hx.spoiled h).bind f⟩
  rw [hbind h] at hk
  exact hx.log_ok h k hk

theorem Answers.congr {safe' : Prop} {r r' : Except ε α}
    (hx : Answers ok fatal x safe r) (hs : safe ↔ safe') (hr : safe → r = r') :
    Answers ok fatal x safe' r' := by
  refine ⟨fun h => ?_, fun h => hx.log_ok (hs.2 h), fun h => hx.spoiled fun h' => h (hs.1 h')⟩
  rw [hx.result_eq (hs.2 h), hr (hs.2 h)]

theorem Answers.map {a : α}
    (hx : Answers ok fatal x safe (.ok a)) (f : α → β) :
    Answers ok fatal (x >>= fun a => pure (f a)) safe (.ok (f a)) :=
  (hx.bind fun _ => answers_pure (f a)).congr (and_iff_left trivial) fun _ => rfl

end

end Logged

end Seahaven
