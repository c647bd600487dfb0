import Mathlib.Data.List.Basic

/-!
# Repetition in a parsing grammar

A rule takes what it reads off the front of its input, or fails. A repetition applies a rule for as
long as it succeeds; a rule that always takes something off can be repeated as often as the input
is long, and then the repetition ends because the rule fails (`many_done`). `Reads` tells a
repetition answer by answer. Rules that simulate each other do so when they are repeated
(`Simulates.many`). Rules that are nested deeper than the input is long do the same
(`Inner.nested_eq`).
-/

namespace Peg

abbrev Rule (α β : Type) := List α → Option (β × List α)

variable {α β : Type} {p : Rule α β}

/-- Applies a rule as long as it succeeds, at most so often. -/
def many (p : Rule α β) : Nat → List α → List β × List α
  | 0, s => ([], s)
  | n + 1, s =>
    match p s with
    | none => ([], s)
    | some (b, t) => (b :: (many p n t).1, (many p n t).2)

theorem findSome?_congr {γ δ : Type} {f g : γ → Option δ} :
    ∀ {l : List γ}, (∀ c ∈ l, f c = g c) → l.findSome? f = l.findSome? g := by
  intro l
  induction l with
  | nil => exact fun _ => rfl
  | cons c l ih =>
    intro h
    rw [List.findSome?_cons, List.findSome?_cons, h c List.mem_cons_self,
      ih fun d hd => h d (List.mem_cons_of_mem c hd)]

def Shortens (p : Rule α β) : Prop := ∀ s b t, p s = some (b, t) → t.length < s.length

theorem Shortens.nil (h : Shortens p) : p [] = none := by
  cases hp : p [] with
  | none => rfl
  | some r => exact absurd (h [] r.1 r.2 hp) (Nat.not_lt_zero _)

theorem Shortens.or {q : Rule α β} (hp : Shortens p) (hq : Shortens q) :
    Shortens fun s => (p s).or (q s) := by
  intro s b t h
  rcases Option.or_eq_some_iff.1 h with h | ⟨-, h⟩
  · exact hp s b t h
  · exact hq s b t h

theorem Shortens.map {γ : Type} (hp : Shortens p) (f : β → γ) :
    Shortens fun s => (p s).map fun (b, t) => (f b, t) := by
  intro s c t h
  obtain ⟨⟨b, u⟩, hr, heq⟩ := Option.map_eq_some_iff.1 h
  cases heq
  exact hp s b t hr

theorem many_nil (h : p [] = none) (n : Nat) : many p n [] = ([], []) := by
  cases n with
  | zero => rfl
  | succ n => rw [many, h]

variable {n : Nat} {s : List α}

/-- **Enough rounds.** The repetition ends because the rule fails on what is left. -/
theorem many_done (h : Shortens p) (hn : s.length ≤ n) :
    p (many p n s).2 = none := by
  induction n generalizing s with
  | zero =>
    obtain rfl := List.eq_nil_of_length_eq_zero (Nat.le_zero.1 hn)
    exact h.nil
  | succ n ih =>
    rw [many]
    cases hp : p s with
    | none => exact hp
    | some r =>
      obtain ⟨b, t⟩ := r
      have hlt := h s b t hp
      exact ih (by omega)

theorem many_forall {Q : β → Prop} (h : ∀ s b t, p s = some (b, t) → Q b) (n : Nat)
    (s : List α) : ∀ b ∈ (many p n s).1, Q b := by
  induction n generalizing s with
  | zero => simp [many]
  | succ n ih =>
    rw [many]
    cases hp : p s with
    | none => simp
    | some r =>
      obtain ⟨b, t⟩ := r
      exact List.forall_mem_cons.2 ⟨h s b t hp, ih t⟩

theorem many_all {Q : β → Prop} (hnil : p [] = none)
    (h : ∀ s b t, p s = some (b, t) → Q b ∨ t = []) (n : Nat) (s : List α) :
    (∀ b ∈ (many p n s).1, Q b) ∨ (many p n s).2 = [] := by
  induction n generalizing s with
  | zero => exact .inl (by simp [many])
  | succ n ih =>
    rw [many]
    cases hp : p s with
    | none => exact .inl (by simp)
    | some r =>
      obtain ⟨b, t⟩ := r
      rcases h s b t hp with hb | rfl
      · exact (ih t).imp_left fun ht => List.forall_mem_cons.2 ⟨hb, ht⟩
      · right
        change (many p n []).2 = []
        rw [many_nil hnil]

theorem many_keeps {K : List α → Prop} (h : ∀ s b t, K s → p s = some (b, t) → K t) (n : Nat)
    (hs : K s) : K (many p n s).2 := by
  induction n generalizing s with
  | zero => exact hs
  | succ n ih =>
    rw [many]
    cases hp : p s with
    | none => exact hs
    | some r =>
      obtain ⟨b, t⟩ := r
      exact ih (h s b t hs hp)

theorem many_length_le (h : Shortens p) (n : Nat) (s : List α) :
    (many p n s).2.length ≤ s.length := by
  induction n generalizing s with
  | zero => exact Nat.le_refl _
  | succ n ih =>
    rw [many]
    cases hp : p s with
    | none => exact Nat.le_refl _
    | some r =>
      obtain ⟨b, t⟩ := r
      exact Nat.le_trans (ih t) (Nat.le_of_lt (h s b t hp))

theorem many_congr {q : Rule α β} (hq : Shortens q)
    (h : ∀ t, t.length ≤ s.length → p t = q t) (n : Nat) : many p n s = many q n s := by
  induction n generalizing s with
  | zero => rfl
  | succ n ih =>
    rw [many, many, h s (Nat.le_refl _)]
    cases hs : q s with
    | none => rfl
    | some r =>
      obtain ⟨b, t⟩ := r
      have hlt := hq s b t hs
      dsimp only
      rw [ih fun u hu => h u (by omega)]

/-- What a repetition answers, and what it leaves, told answer by answer. -/
inductive Reads (p : Rule α β) : List α → List β → List α → Prop
  | done {s : List α} (h : p s = none) : Reads p s [] s
  | more {s t rest : List α} {b : β} {bs : List β} (h : p s = some (b, t))
      (hlt : t.length < s.length) (hrest : Reads p t bs rest) : Reads p s (b :: bs) rest

variable {rest : List α} {bs : List β}

theorem Reads.length_le (h : Reads p s bs rest) :
    bs.length ≤ s.length := by
  induction h with
  | done => exact Nat.zero_le _
  | more _ hlt _ ih =>
    rw [List.length_cons]
    omega

theorem Reads.many (h : Reads p s bs rest)
    (hn : bs.length ≤ n) : many p n s = (bs, rest) := by
  induction h generalizing n with
  | @done s h =>
    cases n with
    | zero => rfl
    | succ n => rw [Peg.many, h]
  | more h _ _ ih =>
    rw [List.length_cons] at hn
    obtain ⟨n, rfl⟩ : ∃ m, n = m + 1 := ⟨n - 1, by omega⟩
    rw [Peg.many, h]
    dsimp only
    rw [ih (by omega)]

/-- **Enough rounds**, told answer by answer. -/
theorem many_of_reads (h : Reads p s bs rest) :
    Peg.many p s.length s = (bs, rest) := h.many h.length_le

theorem reads_many (h : Shortens p) (hn : s.length ≤ n) :
    Reads p s (many p n s).1 (many p n s).2 := by
  induction n generalizing s with
  | zero =>
    obtain rfl := List.eq_nil_of_length_eq_zero (Nat.le_zero.1 hn)
    exact .done h.nil
  | succ n ih =>
    rw [many]
    cases hp : p s with
    | none => exact .done hp
    | some r =>
      obtain ⟨b, t⟩ := r
      have hlt := h s b t hp
      exact .more hp hlt (ih (by omega))

/-! ## Repetitions side by side -/

section Rel

variable {γ δ : Type} {R : α → β → Prop} {S : γ → δ → Prop} {a a' : Option α} {b b' : Option β}

theorem rel_or (h : Option.Rel R a b) (h' : Option.Rel R a' b') :
    Option.Rel R (a.or a') (b.or b') := by
  cases h with
  | none => exact h'
  | some h => exact .some h

theorem rel_map {f : α → γ} {g : β → δ} (h : Option.Rel R a b)
    (hfg : ∀ x y, R x y → S (f x) (g y)) : Option.Rel S (a.map f) (b.map g) := by
  cases h with
  | none => exact .none
  | some h => exact .some (hfg _ _ h)

end Rel

def Beside (R : β → β → Prop) (p q : Rule α β) : Prop :=
  ∀ s, Option.Rel (fun a b => R a.1 b.1 ∧ a.2 = b.2) (p s) (q s)

theorem Beside.many {R : β → β → Prop} {p q : Rule α β} (h : Beside R p q) (n : Nat)
    (s : List α) : List.Forall₂ R (many p n s).1 (many q n s).1 ∧
      (many p n s).2 = (many q n s).2 := by
  induction n generalizing s with
  | zero => exact ⟨.nil, rfl⟩
  | succ n ih =>
    rw [Peg.many, Peg.many]
    have hs := h s
    generalize p s = r at hs
    generalize q s = r' at hs
    cases hs with
    | none => exact ⟨.nil, rfl⟩
    | @some r r' hr =>
      obtain ⟨b, t⟩ := r
      obtain ⟨b', t'⟩ := r'
      obtain ⟨hb, rfl⟩ : R b b' ∧ t = t' := hr
      exact ⟨.cons hb (ih t).1, (ih t).2⟩

/-! ## Rules within rules -/

def nested {ι : Type} (step : (ι → Rule α β) → ι → Rule α β) : Nat → ι → Rule α β
  | 0, _ => fun _ => none
  | n + 1, i => step (nested step n) i

/-- What is inside a rule is shorter than its input. -/
structure Inner {ι : Type} (step : (ι → Rule α β) → ι → Rule α β) : Prop where
  shortens : ∀ p, (∀ i, Shortens (p i)) → ∀ i, Shortens (step p i)
  congr : ∀ p q, (∀ i, Shortens (p i)) → (∀ i, Shortens (q i)) → ∀ s,
    (∀ i t, t.length < s.length → p i t = q i t) → ∀ i, step p i s = step q i s

section Nested

variable {ι : Type} {step : (ι → Rule α β) → ι → Rule α β} (h : Inner step)
include h

theorem Inner.nested_shortens (n : Nat) (i : ι) : Shortens (nested step n i) := by
  induction n generalizing i with
  | zero => exact fun _ _ _ => nofun
  | succ n ih => exact h.shortens _ ih i

/-- **Enough depth.** Rules that are nested deeper than the input is long do the same. -/
theorem Inner.nested_eq {m : Nat} (hn : s.length < n) (hm : s.length < m) (i : ι) :
    nested step n i s = nested step m i s := by
  induction n generalizing m s i with
  | zero => exact absurd hn (Nat.not_lt_zero _)
  | succ n ih =>
    obtain ⟨m, rfl⟩ : ∃ k, m = k + 1 := ⟨m - 1, by omega⟩
    exact h.congr _ _ (h.nested_shortens n) (h.nested_shortens m) s
      (fun j t ht => ih (by omega) (by omega) j) i

end Nested

/-! ## Simulation -/

variable {γ : Type} {f : List γ → List α} {K : List γ → Prop} {q : Rule γ β}

/-- Where an invariant holds of an input, a rule does on its image what another does on it. -/
structure Simulates (f : List γ → List α) (K : List γ → Prop) (q : Rule γ β) (p : Rule α β) :
    Prop where
  step : ∀ v, K v → p (f v) = (q v).map (Prod.map id f)
  keeps : ∀ v b t, K v → q v = some (b, t) → K t

theorem Simulates.reads (h : Simulates f K q p) (hp : Shortens p) {v rest : List γ}
    (hv : K v) (hreads : Reads q v bs rest) : Reads p (f v) bs (f rest) ∧ K rest := by
  induction hreads with
  | done hq => exact ⟨.done (by rw [h.step _ hv, hq]; rfl), hv⟩
  | more hq _ _ ih =>
    have hstep : p (f _) = some (_, f _) := (h.step _ hv).trans (congrArg _ hq)
    obtain ⟨hrest, hk⟩ := ih (h.keeps _ _ _ hv hq)
    exact ⟨.more hstep (hp _ _ _ hstep) hrest, hk⟩

/-- **Simulation.** A repetition on the image of an input does what one on the input does. -/
theorem Simulates.many (h : Simulates f K q p) (hq : Shortens q) (hp : Shortens p) {v : List γ}
    (hv : K v) :
    Peg.many p (f v).length (f v) = Prod.map id f (Peg.many q v.length v) ∧
      K (Peg.many q v.length v).2 := by
  obtain ⟨hreads, hk⟩ := h.reads hp hv (reads_many hq (Nat.le_refl v.length))
  exact ⟨many_of_reads hreads, hk⟩

end Peg
