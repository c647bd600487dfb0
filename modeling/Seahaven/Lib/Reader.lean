import Mathlib.Data.List.Infix

/-!
# Readers

A reader takes what it needs off the front of its input and fails when the input ends too early.
`Reads bound r bs a` says that `bs` is an encoding of `a` for `r`:

1. `r` reads `bs` off the front of any input and answers `a`.
2. Of a strict prefix of `bs`, `r` makes nothing.

Encodings longer than `bound` need not be readable, but no prefix up to the bound passes for one.
Encodings compose: what two readers read one after the other, their sequence reads.
-/

/-- A reader of an input of `β`. -/
abbrev Reader (β ε α : Type) := StateT (List β) (Except ε) α

namespace Reader

variable {β ε α γ δ : Type} {bound : Nat}

/-- The encoding `bs` stands for `a`, and no strict prefix of it for anything. -/
structure Reads (bound : Nat) (r : Reader β ε α) (bs : List β) (a : α) : Prop where
  whole : bs.length ≤ bound → ∀ rest, r (bs ++ rest) = .ok (a, rest)
  short : ∀ s, s <+: bs → s.length < bs.length → s.length ≤ bound → ∃ e, r s = .error e

variable {r : Reader β ε α} {f : α → Reader β ε γ} {a : α}

theorem bind_of_ok {s s' : List β}
    (h : r s = .ok (a, s')) : (r >>= f) s = f a s' := by
  change (r s >>= fun x => f x.1 x.2) = _
  rw [h]
  rfl

theorem bind_of_error {s : List β} {e : ε}
    (h : r s = .error e) : (r >>= f) s = .error e := by
  change (r s >>= fun x => f x.1 x.2) = _
  rw [h]
  rfl

theorem reads_pure (a : α) : Reads bound (pure a : Reader β ε α) [] a where
  whole _ _ := rfl
  short _ _ h := absurd h (Nat.not_lt_zero _)

variable {bs : List β}

/-- **Sequence.** What two readers read one after the other, their sequence reads. -/
theorem Reads.bind {cs : List β} {c : γ}
    (hr : Reads bound r bs a) (hf : Reads bound (f a) cs c) :
    Reads bound (r >>= f) (bs ++ cs) c where
  whole hlen rest := by
    rw [List.length_append] at hlen
    rw [List.append_assoc, bind_of_ok (hr.whole (by omega) _), hf.whole (by omega)]
  short s hs hlt hb := by
    rcases Nat.lt_or_ge s.length bs.length with h | h
    · -- the input ends within the first part
      obtain ⟨e, he⟩ := hr.short s
        (List.prefix_of_prefix_length_le hs (List.prefix_append _ _) h.le) h hb
      exact ⟨e, bind_of_error he⟩
    · -- the first part is whole, and the input ends within the second
      obtain ⟨t, rfl⟩ := List.prefix_of_prefix_length_le (List.prefix_append _ _) hs h
      rw [List.length_append] at hlt hb
      rw [List.length_append] at hlt
      obtain ⟨e, he⟩ := hf.short t ((List.prefix_append_right_inj bs).1 hs) (by omega) (by omega)
      exact ⟨e, by rw [bind_of_ok (hr.whole (by omega) t), he]⟩

theorem Reads.bind_nil {c : γ}
    (hr : Reads bound r bs a) (hf : Reads bound (f a) [] c) : Reads bound (r >>= f) bs c := by
  have := hr.bind hf
  rwa [List.append_nil] at this

/-- **Cut short.** What a bounded piece of the encoding is read as: the value, if the piece is the
whole, and nothing otherwise. -/
theorem Reads.take (hr : Reads bound r bs a) {n : Nat}
    (hn : n ≤ bound) : (bs.length ≤ n → r (bs.take n) = .ok (a, [])) ∧
      (n < bs.length → ∃ e, r (bs.take n) = .error e) := by
  constructor
  · intro hle
    have := hr.whole (hle.trans hn) []
    rwa [List.append_nil, ← List.take_of_length_le hle] at this
  · intro hlt
    exact hr.short _ (List.take_prefix _ _) (by rw [List.length_take]; omega)
      (by rw [List.length_take]; omega)

/-- Takes one after the other. -/
def times : Nat → Reader β ε α → Reader β ε (List α)
  | 0, _ => pure []
  | n + 1, r => do
    let a ← r
    let rest ← times n r
    pure (a :: rest)

theorem reads_times {encode : δ → List β} {value : δ → α} {xs : List δ}
    (h : ∀ x ∈ xs, Reads bound r (encode x) (value x)) :
    Reads bound (times xs.length r) (xs.flatMap encode) (xs.map value) := by
  induction xs with
  | nil => exact reads_pure []
  | cons x xs ih =>
    obtain ⟨hx, hxs⟩ := List.forall_mem_cons.1 h
    exact hx.bind ((ih hxs).bind_nil (reads_pure _))

/-! ## What was read -/

/-- Whatever `r` reads is taken off the front of its input, and `P` holds of value and encoding. -/
def Spells (r : Reader β ε α) (P : α → List β → Prop) : Prop :=
  ∀ s a rest, r s = .ok (a, rest) → ∃ bs, s = bs ++ rest ∧ P a bs

theorem spells_pure (a : α) : Spells (pure a : Reader β ε α) fun c bs => c = a ∧ bs = [] := by
  intro s c rest h
  obtain ⟨rfl, rfl⟩ := Prod.mk.inj (Except.ok.inj h)
  exact ⟨[], rfl, rfl, rfl⟩

theorem Spells.bind {P : α → List β → Prop}
    {Q : α → γ → List β → Prop} (hr : Spells r P) (hf : ∀ a, Spells (f a) (Q a)) :
    Spells (r >>= f) fun c bs => ∃ a bs₁ bs₂, bs = bs₁ ++ bs₂ ∧ P a bs₁ ∧ Q a c bs₂ := by
  intro s c rest h
  cases hs : r s with
  | error e =>
    rw [bind_of_error hs] at h
    cases h
  | ok x =>
    obtain ⟨a, s'⟩ := x
    rw [bind_of_ok hs] at h
    obtain ⟨bs₁, rfl, hP⟩ := hr s a s' hs
    obtain ⟨bs₂, rfl, hQ⟩ := hf a s' c rest h
    exact ⟨bs₁ ++ bs₂, (List.append_assoc _ _ _).symm, a, bs₁, bs₂, rfl, hP, hQ⟩

theorem Spells.imp {P Q : α → List β → Prop} (hr : Spells r P)
    (h : ∀ a bs, P a bs → Q a bs) : Spells r Q := by
  intro s a rest hs
  obtain ⟨bs, rfl, hP⟩ := hr s a rest hs
  exact ⟨bs, rfl, h a bs hP⟩

theorem spells_times {encode : α → List β} {ok : α → Prop}
    (hr : Spells r fun a bs => bs = encode a ∧ ok a) (n : Nat) :
    Spells (times n r) fun as bs => bs = as.flatMap encode ∧ as.length = n ∧ ∀ a ∈ as, ok a := by
  induction n with
  | zero =>
    refine (spells_pure []).imp ?_
    rintro as bs ⟨rfl, rfl⟩
    exact ⟨rfl, rfl, by simp⟩
  | succ n ih =>
    refine (hr.bind fun a => ih.bind fun rest => spells_pure (a :: rest)).imp ?_
    rintro _ _ ⟨a, _, _, rfl, ⟨rfl, ha⟩, as, _, _, rfl, ⟨rfl, rfl, has⟩, rfl, rfl⟩
    exact ⟨by simp, rfl, List.forall_mem_cons.2 ⟨ha, has⟩⟩

end Reader
