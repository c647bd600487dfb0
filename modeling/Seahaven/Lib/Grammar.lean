import Mathlib.Data.List.Infix

/-!
# Grammars with conversions

A parsing grammar as data. What a rule has matched may be converted, and a conversion may refuse the
text, so that the rule fails, or panic. A panic ends the whole run, also where the alternative that
it was reached in would have been given up later.

1. `run`: what an expression does on an input, with an amount of fuel.
2. `WellFormed`, and `run_settles`: where no rule calls itself without taking something off its
   input, every run ends.
3. `met`: the conversions that a run comes to if none of them panics, and `run_eq`: a run panics
   exactly if one of these does.
-/

namespace Grammar

/-- Where a rule is applied: the character before, and what is left of the text. -/
structure Input where
  last : Option Char
  rest : List Char
  deriving DecidableEq

def Input.start (s : List Char) : Input := ⟨none, s⟩

def Input.taken (i j : Input) : List Char := i.rest.take (i.rest.length - j.rest.length)

/-- An expression of a grammar with rules `N` and conversions `A`. -/
inductive Exp (N A : Type)
  | empty
  | one (p : Char → Bool)
  | call (n : N)
  | seq (a b : Exp N A)
  | alt (a b : Exp N A)
  | star (a : Exp N A)
  | look (a : Exp N A)
  | absent (a : Exp N A)
  | behind (p : Char → Bool)
  | check (b : Bool)
  | convert (f : A) (a : Exp N A)

namespace Exp

variable {N A : Type}

def opt (a : Exp N A) : Exp N A := .alt a .empty

def plus (a : Exp N A) : Exp N A := .seq a (.star a)

def lit : List Char → Exp N A
  | [] => .empty
  | [c] => .one (· == c)
  | c :: s => .seq (.one (· == c)) (lit s)

def seqs : List (Exp N A) → Exp N A
  | [] => .empty
  | [a] => a
  | a :: as => .seq a (seqs as)

def alts : List (Exp N A) → Exp N A
  | [] => .check false
  | [a] => a
  | a :: as => .alt a (alts as)

def any : Exp N A := .one fun _ => true

end Exp

/-- What a conversion makes of a text. -/
inductive Verdict
  | ok
  | err
  | panic
  deriving DecidableEq

/-- How a run ends. -/
inductive Outcome
  | matched (i : Input)
  | fails
  | panics
  | outOfFuel
  deriving DecidableEq

/-- A grammar. -/
structure Rules (N A : Type) where
  body : N → Exp N A
  convert : A → List Char → Verdict

variable {N A : Type} (G : Rules N A)

/-- A run. -/
def run : Nat → Exp N A → Input → Outcome
  | 0, _, _ => .outOfFuel
  | _ + 1, .empty, i => .matched i
  | _ + 1, .one p, i =>
    match i.rest with
    | [] => .fails
    | c :: rest => if p c then .matched ⟨some c, rest⟩ else .fails
  | n + 1, .call m, i => run n (G.body m) i
  | n + 1, .seq a b, i =>
    match run n a i with
    | .matched j => run n b j
    | r => r
  | n + 1, .alt a b, i =>
    match run n a i with
    | .fails => run n b i
    | r => r
  | n + 1, .star a, i =>
    match run n a i with
    | .matched j => run n (.star a) j
    | .fails => .matched i
    | r => r
  | n + 1, .look a, i =>
    match run n a i with
    | .matched _ => .matched i
    | r => r
  | n + 1, .absent a, i =>
    match run n a i with
    | .matched _ => .fails
    | .fails => .matched i
    | r => r
  | _ + 1, .behind p, i =>
    match i.last with
    | none => .fails
    | some c => if p c then .matched i else .fails
  | _ + 1, .check b, i => if b then .matched i else .fails
  | n + 1, .convert f a, i =>
    match run n a i with
    | .matched j =>
      match G.convert f (i.taken j) with
      | .ok => .matched j
      | .err => .fails
      | .panic => .panics
    | r => r

variable {G}

/-! ## More fuel -/

variable {n : Nat} {e : Exp N A}

theorem run_succ {i : Input} (h : run G n e i ≠ .outOfFuel) :
    run G (n + 1) e i = run G n e i := by
  induction n generalizing e i with
  | zero => exact absurd rfl h
  | succ n ih =>
    cases e with
    | empty => rfl
    | one p => rfl
    | behind p => rfl
    | check b => rfl
    | call m => exact ih h
    | seq a b =>
      rw [run] at h ⊢
      have ha : run G n a i ≠ .outOfFuel := fun ha => h (by rw [ha])
      rw [ih ha]
      conv_rhs => rw [run]
      cases hr : run G n a i with
      | matched j =>
        rw [hr] at h
        exact ih h
      | _ => rfl
    | alt a b =>
      rw [run] at h ⊢
      have ha : run G n a i ≠ .outOfFuel := fun ha => h (by rw [ha])
      rw [ih ha]
      conv_rhs => rw [run]
      cases hr : run G n a i with
      | fails =>
        rw [hr] at h
        exact ih h
      | _ => rfl
    | star a =>
      rw [run] at h ⊢
      have ha : run G n a i ≠ .outOfFuel := fun ha => h (by rw [ha])
      rw [ih ha]
      conv_rhs => rw [run]
      cases hr : run G n a i with
      | matched j =>
        rw [hr] at h
        exact ih h
      | _ => rfl
    | look a =>
      rw [run] at h ⊢
      have ha : run G n a i ≠ .outOfFuel := fun ha => h (by rw [ha])
      rw [ih ha]
      rfl
    | absent a =>
      rw [run] at h ⊢
      have ha : run G n a i ≠ .outOfFuel := fun ha => h (by rw [ha])
      rw [ih ha]
      rfl
    | convert f a =>
      rw [run] at h ⊢
      have ha : run G n a i ≠ .outOfFuel := fun ha => h (by rw [ha])
      rw [ih ha]
      rfl

variable {m : Nat}

theorem run_mono (hnm : n ≤ m) {i : Input}
    (h : run G n e i ≠ .outOfFuel) : run G m e i = run G n e i := by
  induction hnm with
  | refl => rfl
  | step _ ih => rw [run_succ (by rwa [ih]), ih]

theorem run_unique {i : Input} (hn : run G n e i ≠ .outOfFuel)
    (hm : run G m e i ≠ .outOfFuel) : run G n e i = run G m e i :=
  (run_mono (le_max_left n m) hn).symm.trans (run_mono (le_max_right n m) hm)

/-! ## Well-formed grammars -/

/-- Whether an expression may match without taking anything, if the rules in `ν` may. -/
def Exp.nullable (ν : N → Bool) : Exp N A → Bool
  | .one _ => false
  | .call n => ν n
  | .seq a b => a.nullable ν && b.nullable ν
  | .alt a b => a.nullable ν || b.nullable ν
  | .convert _ a => a.nullable ν
  | _ => true

/-- Whether every rule that an expression may come to before it has taken anything is below `k`, and
nothing is repeated that may match nothing. Behind what has been taken, every rule is allowed. -/
def Exp.fine (ν : N → Bool) (ρ : N → Nat) (bound : Nat) : Nat → Exp N A → Bool
  | k, .call n => ρ n < k
  | k, .seq a b => a.fine ν ρ bound k && b.fine ν ρ bound (if a.nullable ν then k else bound)
  | k, .alt a b => a.fine ν ρ bound k && b.fine ν ρ bound k
  | k, .star a => a.fine ν ρ bound k && !a.nullable ν
  | k, .look a => a.fine ν ρ bound k
  | k, .absent a => a.fine ν ρ bound k
  | k, .convert _ a => a.fine ν ρ bound k
  | _, _ => true

/-- The rules that may match nothing, and an order in which they call each other on one input. -/
structure WellFormed (G : Rules N A) (ν : N → Bool) (ρ : N → Nat) (bound : Nat) : Prop where
  nullable : ∀ n, (G.body n).nullable ν = true → ν n = true
  fine : ∀ n, (G.body n).fine ν ρ bound (ρ n) = true
  lt : ∀ n, ρ n < bound

variable {ν : N → Bool} {ρ : N → Nat} {bound : Nat}

theorem Exp.fine_mono {k k' : Nat} (hk : k ≤ k')
    (h : e.fine ν ρ bound k = true) : e.fine ν ρ bound k' = true := by
  induction e generalizing k k' with
  | call n =>
    simp only [Exp.fine, decide_eq_true_eq] at h ⊢
    omega
  | seq a b iha ihb =>
    simp only [Exp.fine, Bool.and_eq_true] at h ⊢
    refine ⟨iha hk h.1, ihb ?_ h.2⟩
    split_ifs
    · exact hk
    · exact Nat.le_refl _
  | alt a b iha ihb =>
    simp only [Exp.fine, Bool.and_eq_true] at h ⊢
    exact ⟨iha hk h.1, ihb hk h.2⟩
  | star a ih =>
    simp only [Exp.fine, Bool.and_eq_true] at h ⊢
    exact ⟨ih hk h.1, h.2⟩
  | look a ih => exact ih hk h
  | absent a ih => exact ih hk h
  | convert f a ih => exact ih hk h
  | _ => rfl

theorem run_suffix (hG : ∀ n, (G.body n).nullable ν = true → ν n = true) :
    ∀ {e : Exp N A} {i j : Input}, run G n e i = .matched j →
      j.rest <:+ i.rest ∧ (e.nullable ν = false → j.rest.length < i.rest.length) := by
  induction n with
  | zero => exact nofun
  | succ n ih =>
    intro e i j h
    cases e with
    | empty =>
      cases h
      exact ⟨List.suffix_rfl, nofun⟩
    | one p =>
      rw [run] at h
      cases hi : i.rest with
      | nil =>
        rw [hi] at h
        cases h
      | cons c rest =>
        rw [hi] at h
        dsimp only at h
        split_ifs at h
        cases h
        exact ⟨List.suffix_cons c rest, fun _ => Nat.lt_succ_self _⟩
    | call m =>
      obtain ⟨hsuffix, hlt⟩ := ih (e := G.body m) h
      refine ⟨hsuffix, fun hν => hlt ?_⟩
      cases hb : (G.body m).nullable ν with
      | false => rfl
      | true => exact absurd (hG m hb) (by rw [show ν m = false from hν]; decide)
    | seq a b =>
      rw [run] at h
      split at h
      · next k hk =>
        obtain ⟨hsa, hla⟩ := ih hk
        obtain ⟨hsb, hlb⟩ := ih h
        have hle := hsb.length_le
        have hle' := hsa.length_le
        refine ⟨hsb.trans hsa, fun hν => ?_⟩
        rw [Exp.nullable, Bool.and_eq_false_iff] at hν
        rcases hν with hν | hν
        · have := hla hν
          omega
        · have := hlb hν
          omega
      · next hne => exact absurd h (hne j)
    | alt a b =>
      rw [run] at h
      split at h
      · obtain ⟨hs, hl⟩ := ih h
        refine ⟨hs, fun hν => hl ?_⟩
        rw [Exp.nullable, Bool.or_eq_false_iff] at hν
        exact hν.2
      · obtain ⟨hs, hl⟩ := ih h
        refine ⟨hs, fun hν => hl ?_⟩
        rw [Exp.nullable, Bool.or_eq_false_iff] at hν
        exact hν.1
    | star a =>
      rw [run] at h
      split at h
      · next k hk => exact ⟨(ih h).1.trans (ih hk).1, nofun⟩
      · cases h
        exact ⟨List.suffix_rfl, nofun⟩
      · next hne _ => exact absurd h (hne j)
    | look a =>
      rw [run] at h
      split at h
      · cases h
        exact ⟨List.suffix_rfl, nofun⟩
      · next hne => exact absurd h (hne j)
    | absent a =>
      rw [run] at h
      split at h
      · cases h
      · cases h
        exact ⟨List.suffix_rfl, nofun⟩
      · next hne _ => exact absurd h (hne j)
    | behind p =>
      rw [run] at h
      split at h
      · cases h
      · split_ifs at h
        cases h
        exact ⟨List.suffix_rfl, nofun⟩
    | check b =>
      rw [run] at h
      split_ifs at h
      cases h
      exact ⟨List.suffix_rfl, nofun⟩
    | convert f a =>
      rw [run] at h
      split at h
      · next k hk =>
        split at h
        · cases h
          exact ih (e := a) hk
        · cases h
        · cases h
      · next hne => exact absurd h (hne j)

/-! ## Termination -/

def Ends (G : Rules N A) (e : Exp N A) (i : Input) : Prop := ∃ n, run G n e i ≠ .outOfFuel

variable {a b : Exp N A} {i : Input}

theorem Ends.call {m : N} (h : Ends G (G.body m) i) : Ends G (.call m) i := by
  obtain ⟨n, hn⟩ := h
  exact ⟨n + 1, hn⟩

theorem Ends.seq (ha : Ends G a i) (hb : ∀ n j, run G n a i = .matched j → Ends G b j) :
    Ends G (.seq a b) i := by
  obtain ⟨n, hn⟩ := ha
  cases hr : run G n a i with
  | matched j =>
    obtain ⟨m, hm⟩ := hb n j hr
    refine ⟨max n m + 1, ?_⟩
    rw [run, run_mono (le_max_left n m) hn, hr]
    dsimp only
    rwa [run_mono (le_max_right n m) hm]
  | outOfFuel => exact absurd hr hn
  | _ => exact ⟨n + 1, by rw [run, hr]; nofun⟩

theorem Ends.alt (ha : Ends G a i) (hb : Ends G b i) : Ends G (.alt a b) i := by
  obtain ⟨n, hn⟩ := ha
  obtain ⟨m, hm⟩ := hb
  refine ⟨max n m + 1, ?_⟩
  rw [run, run_mono (le_max_left n m) hn]
  cases hr : run G n a i with
  | fails =>
    dsimp only
    rwa [run_mono (le_max_right n m) hm]
  | outOfFuel => exact absurd hr hn
  | _ => nofun

theorem Ends.star (ha : Ends G a i) (hb : ∀ n j, run G n a i = .matched j → Ends G (.star a) j) :
    Ends G (.star a) i := by
  obtain ⟨n, hn⟩ := ha
  cases hr : run G n a i with
  | matched j =>
    obtain ⟨m, hm⟩ := hb n j hr
    refine ⟨max n m + 1, ?_⟩
    rw [run, run_mono (le_max_left n m) hn, hr]
    dsimp only
    rwa [run_mono (le_max_right n m) hm]
  | outOfFuel => exact absurd hr hn
  | _ => exact ⟨n + 1, by rw [run, hr]; nofun⟩

theorem Ends.look (ha : Ends G a i) : Ends G (.look a) i := by
  obtain ⟨n, hn⟩ := ha
  refine ⟨n + 1, ?_⟩
  rw [run]
  cases hr : run G n a i with
  | outOfFuel => exact absurd hr hn
  | _ => nofun

theorem Ends.absent (ha : Ends G a i) : Ends G (.absent a) i := by
  obtain ⟨n, hn⟩ := ha
  refine ⟨n + 1, ?_⟩
  rw [run]
  cases hr : run G n a i with
  | outOfFuel => exact absurd hr hn
  | _ => nofun

theorem Ends.convert {f : A} (ha : Ends G a i) : Ends G (.convert f a) i := by
  obtain ⟨n, hn⟩ := ha
  refine ⟨n + 1, ?_⟩
  rw [run]
  cases hr : run G n a i with
  | outOfFuel => exact absurd hr hn
  | matched j =>
    dsimp only
    cases G.convert f (i.taken j) <;> nofun
  | _ => nofun

/-- **Termination.** In a well-formed grammar every run ends. -/
theorem run_settles (hG : WellFormed G ν ρ bound)
    (he : e.fine ν ρ bound bound = true) (i : Input) : Ends G e i := by
  suffices H : ∀ len k, k ≤ bound → ∀ e : Exp N A, e.fine ν ρ bound k = true →
      ∀ i : Input, i.rest.length ≤ len → Ends G e i from
    H i.rest.length bound (Nat.le_refl _) e he i (Nat.le_refl _)
  intro len
  -- on what is left of the input, then on the rules that may be called, then on the expression
  induction len using Nat.strong_induction_on with
  | _ len ihlen =>
    have hshorter : ∀ (e : Exp N A), e.fine ν ρ bound bound = true → ∀ i : Input,
        i.rest.length < len → Ends G e i :=
      fun e he i hi => ihlen _ hi bound (Nat.le_refl _) e he i (Nat.le_refl _)
    intro k
    induction k using Nat.strong_induction_on with
    | _ k ihk =>
      intro hk e he
      induction e with
      | empty => exact fun i _ => ⟨1, nofun⟩
      | one p =>
        refine fun i _ => ⟨1, ?_⟩
        rw [run]
        split
        · nofun
        · split_ifs <;> nofun
      | behind p =>
        refine fun i _ => ⟨1, ?_⟩
        rw [run]
        split
        · nofun
        · split_ifs <;> nofun
      | check b =>
        refine fun i _ => ⟨1, ?_⟩
        rw [run]
        split_ifs <;> nofun
      | call m =>
        intro i hi
        have hm : ρ m < k := by simpa only [Exp.fine, decide_eq_true_eq] using he
        exact Ends.call (ihk (ρ m) hm (hG.lt m).le _ (hG.fine m) i hi)
      | seq a b iha ihb =>
        intro i hi
        simp only [Exp.fine, Bool.and_eq_true] at he
        refine Ends.seq (iha he.1 i hi) fun n j hj => ?_
        obtain ⟨hsuffix, hlt⟩ := run_suffix hG.nullable hj
        have hle := hsuffix.length_le
        cases hν : a.nullable ν with
        | false =>
          rw [hν, if_neg Bool.false_ne_true] at he
          have := hlt hν
          exact hshorter b he.2 j (by omega)
        | true =>
          rw [hν, if_pos rfl] at he
          exact ihb he.2 j (by omega)
      | alt a b iha ihb =>
        intro i hi
        simp only [Exp.fine, Bool.and_eq_true] at he
        exact Ends.alt (iha he.1 i hi) (ihb he.2 i hi)
      | star a ih =>
        intro i hi
        have hfine := he
        simp only [Exp.fine, Bool.and_eq_true, Bool.not_eq_true'] at he
        refine Ends.star (ih he.1 i hi) fun n j hj => ?_
        have := (run_suffix hG.nullable hj).2 he.2
        exact hshorter _ (Exp.fine_mono hk hfine) j (by omega)
      | look a ih => exact fun i hi => Ends.look (ih he i hi)
      | absent a ih => exact fun i hi => Ends.absent (ih he i hi)
      | convert f a ih => exact fun i hi => Ends.convert (ih he i hi)

/-! ## Conversions -/

/-- A grammar in which no conversion panics: the text is accepted instead. -/
def Rules.unlimited (G : Rules N A) : Rules N A where
  body := G.body
  convert f s :=
    match G.convert f s with
    | .panic => .ok
    | v => v

def Outcome.onto {α : Type} (r : Outcome) (f : Input → List α) : List α :=
  match r with
  | .matched j => f j
  | _ => []

/-- The conversions that a run comes to if none of them panics. -/
def met (G : Rules N A) : Nat → Exp N A → Input → List (A × List Char)
  | 0, _, _ => []
  | n + 1, .call m, i => met G n (G.body m) i
  | n + 1, .seq a b, i => met G n a i ++ (run G.unlimited n a i).onto (met G n b)
  | n + 1, .alt a b, i =>
    met G n a i ++ if run G.unlimited n a i = .fails then met G n b i else []
  | n + 1, .star a, i => met G n a i ++ (run G.unlimited n a i).onto (met G n (.star a))
  | n + 1, .look a, i => met G n a i
  | n + 1, .absent a, i => met G n a i
  | n + 1, .convert f a, i =>
    met G n a i ++ (run G.unlimited n a i).onto fun j => [(f, i.taken j)]
  | _ + 1, _, _ => []

def Rules.Breaks (G : Rules N A) (l : List (A × List Char)) : Prop :=
  ∃ x ∈ l, G.convert x.1 x.2 = .panic

instance (G : Rules N A) (l : List (A × List Char)) : Decidable (G.Breaks l) := by
  unfold Rules.Breaks
  infer_instance

theorem not_breaks_nil : ¬ G.Breaks [] := nofun

theorem breaks_append {l l' : List (A × List Char)} :
    G.Breaks (l ++ l') ↔ G.Breaks l ∨ G.Breaks l' := by
  unfold Rules.Breaks
  simp only [List.mem_append, or_and_right, exists_or]

theorem breaks_singleton {f : A} {s : List Char} :
    G.Breaks [(f, s)] ↔ G.convert f s = .panic := by
  unfold Rules.Breaks
  simp only [List.mem_singleton, exists_eq_left]

/-- **Panics.** A run panics exactly if a conversion that it comes to does. -/
theorem run_eq (n : Nat) : ∀ (e : Exp N A) (i : Input), run G n e i =
    if G.Breaks (met G n e i) then .panics else run G.unlimited n e i := by
  induction n with
  | zero => exact fun e i => rfl
  | succ n ih =>
    intro e i
    cases e with
    | empty => rfl
    | one p => rfl
    | behind p => rfl
    | check b => rfl
    | call m => exact ih _ i
    | look a =>
      rw [run, met, ih a i]
      split_ifs <;> rfl
    | absent a =>
      rw [run, met, ih a i]
      split_ifs <;> rfl
    | seq a b =>
      rw [run, met, ih a i]
      conv_rhs => rw [run]
      simp only [breaks_append]
      by_cases ha : G.Breaks (met G n a i)
      · rw [if_pos ha, if_pos (.inl ha)]
      · rw [if_neg ha]
        cases run G.unlimited n a i with
        | matched j =>
          simp only [ha, false_or]
          exact ih b j
        | _ => exact (if_neg (not_or.2 ⟨ha, not_breaks_nil⟩)).symm
    | alt a b =>
      rw [run, met, ih a i]
      conv_rhs => rw [run]
      simp only [breaks_append]
      by_cases ha : G.Breaks (met G n a i)
      · rw [if_pos ha, if_pos (.inl ha)]
      · rw [if_neg ha]
        cases run G.unlimited n a i with
        | fails =>
          simp only [ha, false_or, if_pos]
          exact ih b i
        | _ => exact (if_neg (not_or.2 ⟨ha, not_breaks_nil⟩)).symm
    | star a =>
      rw [run, met, ih a i]
      conv_rhs => rw [run]
      simp only [breaks_append]
      by_cases ha : G.Breaks (met G n a i)
      · rw [if_pos ha, if_pos (.inl ha)]
      · rw [if_neg ha]
        cases run G.unlimited n a i with
        | matched j =>
          simp only [ha, false_or]
          exact ih (.star a) j
        | _ => exact (if_neg (not_or.2 ⟨ha, not_breaks_nil⟩)).symm
    | convert f a =>
      rw [run, met, ih a i]
      conv_rhs => rw [run]
      simp only [breaks_append]
      by_cases ha : G.Breaks (met G n a i)
      · rw [if_pos ha, if_pos (.inl ha)]
      · rw [if_neg ha]
        cases run G.unlimited n a i with
        | matched j =>
          simp only [ha, false_or, Outcome.onto, breaks_singleton, Rules.unlimited]
          cases G.convert f (i.taken j) <;> rfl
        | _ => exact (if_neg (not_or.2 ⟨ha, not_breaks_nil⟩)).symm

theorem run_ne_panics (hG : ∀ f s, G.convert f s ≠ .panic) (n : Nat) :
    ∀ (e : Exp N A) (i : Input), run G n e i ≠ .panics := by
  induction n with
  | zero => exact fun _ _ => nofun
  | succ n ih =>
    intro e i
    cases e with
    | empty => nofun
    | one p =>
      rw [run]
      split
      · nofun
      · split_ifs <;> nofun
    | behind p =>
      rw [run]
      split
      · nofun
      · split_ifs <;> nofun
    | check b =>
      rw [run]
      split_ifs <;> nofun
    | call m => exact ih _ i
    | seq a b =>
      rw [run]
      split
      · exact ih b _
      · exact ih a i
    | alt a b =>
      rw [run]
      split
      · exact ih b i
      · exact ih a i
    | star a =>
      rw [run]
      split
      · exact ih _ _
      · nofun
      · exact ih a i
    | look a =>
      rw [run]
      split
      · nofun
      · exact ih a i
    | absent a =>
      rw [run]
      split
      · nofun
      · nofun
      · exact ih a i
    | convert f a =>
      rw [run]
      split
      · split
        · nofun
        · nofun
        · next h => exact absurd h (hG _ _)
      · exact ih a i

theorem unlimited_ne_panic (f : A) (s : List Char) : G.unlimited.convert f s ≠ .panic := by
  change (match G.convert f s with | .panic => Verdict.ok | v => v) ≠ .panic
  cases G.convert f s <;> nofun

def Returns (G : Rules N A) (e : Exp N A) (i : Input) : Prop :=
  ∃ n, run G n e i ≠ .outOfFuel ∧ run G n e i ≠ .panics

/-- **Returns.** In a well-formed grammar an expression returns exactly if no conversion that its
runs come to panics. -/
theorem returns_iff (hG : WellFormed G ν ρ bound)
    (he : e.fine ν ρ bound bound = true) (i : Input) :
    Returns G e i ↔ ∀ n, ¬ G.Breaks (met G n e i) := by
  constructor
  · rintro ⟨n, hends, hpanics⟩ m hbreaks
    have hm : run G m e i = .panics := by rw [run_eq, if_pos hbreaks]
    have hm' : run G m e i ≠ .outOfFuel := by rw [hm]; nofun
    exact hpanics ((run_unique hends hm').trans hm)
  · intro h
    obtain ⟨n, hn⟩ := run_settles hG he i
    refine ⟨n, hn, ?_⟩
    rw [run_eq, if_neg (h n)]
    exact run_ne_panics unlimited_ne_panic n e i

/-! ## Where conversions are met -/

/-- The conversions that a run comes to outside of the rules that it calls. -/
def own (G : Rules N A) : Nat → Exp N A → Input → List (A × List Char)
  | n + 1, .seq a b, i => own G n a i ++ (run G.unlimited n a i).onto (own G n b)
  | n + 1, .alt a b, i =>
    own G n a i ++ if run G.unlimited n a i = .fails then own G n b i else []
  | n + 1, .star a, i => own G n a i ++ (run G.unlimited n a i).onto (own G n (.star a))
  | n + 1, .look a, i => own G n a i
  | n + 1, .absent a, i => own G n a i
  | n + 1, .convert f a, i =>
    own G n a i ++ (run G.unlimited n a i).onto fun j => [(f, i.taken j)]
  | _, _, _ => []

theorem mem_onto {α : Type} {r : Outcome} {f : Input → List α} {x : α} :
    x ∈ r.onto f ↔ ∃ j, r = .matched j ∧ x ∈ f j := by
  cases r with
  | matched j =>
    constructor
    · exact fun h => ⟨j, rfl, h⟩
    · rintro ⟨k, ⟨⟩, h⟩
      exact h
  | _ => exact iff_of_false List.not_mem_nil fun ⟨_, h, _⟩ => nomatch h

def MetIn (G : Rules N A) (x : A × List Char) (n : Nat) (e : Exp N A) (i : Input) : Prop :=
  x ∈ own G n e i ∨ ∃ m k j, x ∈ own G k (G.body m) j ∧ j.rest <:+ i.rest

theorem metIn_of_mem (hG : ∀ n, (G.body n).nullable ν = true → ν n = true) {x : A × List Char}
    : ∀ {e : Exp N A} {i : Input}, x ∈ met G n e i → MetIn G x n e i := by
  have hdeeper : ∀ {e e' : Exp N A} {i j : Input} {k k' : Nat},
      MetIn G x k e j → (x ∈ own G k e j → x ∈ own G k' e' i) → j.rest <:+ i.rest →
        MetIn G x k' e' i := by
    rintro e e' i j k k' (h | ⟨m, l, j', hown, hsuffix⟩) hown' hs
    · exact .inl (hown' h)
    · exact .inr ⟨m, l, j', hown, hsuffix.trans hs⟩
  induction n with
  | zero => exact fun h => absurd h List.not_mem_nil
  | succ n ih =>
    intro e i h
    cases e with
    | empty => exact absurd h List.not_mem_nil
    | one p => exact absurd h List.not_mem_nil
    | behind p => exact absurd h List.not_mem_nil
    | check b => exact absurd h List.not_mem_nil
    | call m =>
      rcases ih (e := G.body m) h with h | h
      · exact .inr ⟨m, n, i, h, List.suffix_rfl⟩
      · exact .inr h
    | look a => exact hdeeper (ih (e := a) h) id List.suffix_rfl
    | absent a => exact hdeeper (ih (e := a) h) id List.suffix_rfl
    | seq a b =>
      rw [met, List.mem_append, mem_onto] at h
      rcases h with h | ⟨j, hj, h⟩
      · exact hdeeper (ih h) (fun h => List.mem_append_left _ h) List.suffix_rfl
      · exact hdeeper (ih h) (fun h => List.mem_append_right _ (mem_onto.2 ⟨j, hj, h⟩))
          (run_suffix (G := G.unlimited) hG hj).1
    | alt a b =>
      rw [met, List.mem_append] at h
      rcases h with h | h
      · exact hdeeper (ih h) (fun h => List.mem_append_left _ h) List.suffix_rfl
      · split_ifs at h with hfails
        · refine hdeeper (ih h) (fun h => List.mem_append_right _ ?_) List.suffix_rfl
          rwa [if_pos hfails]
        · exact absurd h List.not_mem_nil
    | star a =>
      rw [met, List.mem_append, mem_onto] at h
      rcases h with h | ⟨j, hj, h⟩
      · exact hdeeper (ih h) (fun h => List.mem_append_left _ h) List.suffix_rfl
      · exact hdeeper (ih h) (fun h => List.mem_append_right _ (mem_onto.2 ⟨j, hj, h⟩))
          (run_suffix (G := G.unlimited) hG hj).1
    | convert f a =>
      rw [met, List.mem_append] at h
      rcases h with h | h
      · exact hdeeper (ih h) (fun h => List.mem_append_left _ h) List.suffix_rfl
      · exact .inl (List.mem_append_right _ h)

theorem infix_of_mem_own (hG : ∀ n, (G.body n).nullable ν = true → ν n = true)
    {x : A × List Char} :
    ∀ {e : Exp N A} {i : Input}, x ∈ own G n e i → x.2 <:+: i.rest := by
  induction n with
  | zero =>
    intro e i h
    cases e <;> exact absurd h List.not_mem_nil
  | succ n ih =>
    intro e i h
    cases e with
    | empty => exact absurd h List.not_mem_nil
    | one p => exact absurd h List.not_mem_nil
    | behind p => exact absurd h List.not_mem_nil
    | check b => exact absurd h List.not_mem_nil
    | call m => exact absurd h List.not_mem_nil
    | look a => exact ih (e := a) h
    | absent a => exact ih (e := a) h
    | seq a b =>
      rw [own, List.mem_append, mem_onto] at h
      rcases h with h | ⟨j, hj, h⟩
      · exact ih h
      · exact (ih h).trans (run_suffix (G := G.unlimited) hG hj).1.isInfix
    | alt a b =>
      rw [own, List.mem_append] at h
      rcases h with h | h
      · exact ih h
      · split_ifs at h
        · exact ih h
        · exact absurd h List.not_mem_nil
    | star a =>
      rw [own, List.mem_append, mem_onto] at h
      rcases h with h | ⟨j, hj, h⟩
      · exact ih h
      · exact (ih h).trans (run_suffix (G := G.unlimited) hG hj).1.isInfix
    | convert f a =>
      rw [own, List.mem_append, mem_onto] at h
      rcases h with h | ⟨j, -, h⟩
      · exact ih h
      · rw [List.mem_singleton.1 h]
        exact (List.take_prefix _ _).isInfix

/-- Whether an expression converts nothing outside of the rules that it calls. -/
def Exp.plain : Exp N A → Bool
  | .seq a b => a.plain && b.plain
  | .alt a b => a.plain && b.plain
  | .star a => a.plain
  | .look a => a.plain
  | .absent a => a.plain
  | .convert _ _ => false
  | _ => true

theorem own_plain : ∀ {e : Exp N A} {i : Input}, e.plain = true → own G n e i = [] := by
  induction n with
  | zero =>
    intro e i _
    cases e <;> rfl
  | succ n ih =>
    intro e i h
    cases e with
    | seq a b =>
      rw [Exp.plain, Bool.and_eq_true] at h
      rw [own, ih h.1, List.nil_append]
      cases run G.unlimited n a i with
      | matched j => exact ih h.2
      | _ => rfl
    | alt a b =>
      rw [Exp.plain, Bool.and_eq_true] at h
      rw [own, ih h.1, ih h.2, ite_self]
      rfl
    | star a =>
      rw [own, ih (e := a) h, List.nil_append]
      cases run G.unlimited n a i with
      | matched j => exact ih (e := .star a) h
      | _ => rfl
    | look a => exact ih (e := a) h
    | absent a => exact ih (e := a) h
    | convert f a => cases h
    | _ => rfl

/-! ## Classes of characters -/

variable {j : Input}

theorem taken_eq {i : Input} {t : List Char} (h : i.rest = t ++ j.rest) : i.taken j = t := by
  rw [Input.taken, h, List.length_append, Nat.add_sub_cancel, List.take_left]

theorem run_one {p : Char → Bool} {i : Input} (h : run G n (.one p) i = .matched j) :
    ∃ c, i.rest = c :: j.rest ∧ p c = true := by
  cases n with
  | zero => cases h
  | succ n =>
    rw [run] at h
    split at h
    · cases h
    · next c rest hrest =>
      split_ifs at h with hp
      cases h
      exact ⟨c, hrest, hp⟩

theorem run_star_one {p : Char → Bool} :
    ∀ {i j : Input}, run G n (.star (.one p)) i = .matched j →
      ∃ t, i.rest = t ++ j.rest ∧ (∀ c ∈ t, p c = true) ∧ (t = [] → i = j) := by
  induction n with
  | zero => exact nofun
  | succ n ih =>
    intro i j h
    rw [run] at h
    split at h
    · next k hk =>
      obtain ⟨c, hrest, hc⟩ := run_one hk
      obtain ⟨t, ht, hall, -⟩ := ih h
      exact ⟨c :: t, by rw [hrest, ht, List.cons_append], List.forall_mem_cons.2 ⟨hc, hall⟩, nofun⟩
    · cases h
      exact ⟨[], rfl, nofun, fun _ => rfl⟩
    · next hne _ => exact absurd h (hne j)

theorem run_seq {a b : Exp N A} {i k : Input}
    (h : run G (n + 1) (.seq a b) i = .matched k) :
    ∃ j, run G n a i = .matched j ∧ run G n b j = .matched k := by
  rw [run] at h
  split at h
  · next j hj => exact ⟨j, hj, h⟩
  · next hne => exact absurd h (hne k)

theorem run_seq_of {a b : Exp N A} {i k : Input} (ha : run G n a i = .matched j)
    (hb : run G m b j = .matched k) : ∃ l, run G l (.seq a b) i = .matched k := by
  refine ⟨max n m + 1, ?_⟩
  rw [run, run_mono (le_max_left n m) (by rw [ha]; nofun), ha]
  dsimp only
  rw [run_mono (le_max_right n m) (by rw [hb]; nofun), hb]

theorem not_fails_of_matched {i : Input}
    (hn : run G n e i = .matched j) : run G m e i ≠ .fails := by
  intro hm
  have heq := run_unique (G := G) (n := n) (m := m) (by rw [hn]; nofun) (by rw [hm]; nofun)
  rw [hn, hm] at heq
  cases heq

theorem run_look {a : Exp N A} {i : Input}
    (h : run G (n + 1) (.look a) i = .matched j) : i = j ∧ ∃ k, run G n a i = .matched k := by
  rw [run] at h
  split at h
  · next k hk =>
    cases h
    exact ⟨rfl, k, hk⟩
  · next hne => exact absurd h (hne j)

end Grammar
