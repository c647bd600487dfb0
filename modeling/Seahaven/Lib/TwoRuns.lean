import Seahaven.Lib.Follow

/-!
# Properties of the parts of a computation

Properties of logged computations that go along the way these are put together: what is put
together from parts that have one has it too, so that a fact about an interpreter is shown for its
primitives.

1. `Compositional C`: the rules, with what follows for repeated steps.
2. `Leads R`: from any state the computation ends where `R` leads. `Logs P`: it logs what has `P`.
3. `Agrees good shows R`: two runs from states that `R` relates, as long as what they log is `good`,
   answer the same, log the same as far as it `shows`, and end where `R` relates.
-/

namespace LoggedOp

variable {κ μ σ ε α β γ : Type}

/-- A property that goes along the ways to put computations together. -/
structure Compositional (C : ∀ {α : Type}, LoggedOp κ σ ε α → Prop) : Prop where
  pure {α : Type} (a : α) : C (pure a)
  fail {α : Type} (e : ε) : C (check (.error e) : LoggedOp κ σ ε α)
  bind {α β : Type} {x : LoggedOp κ σ ε α} {f : α → LoggedOp κ σ ε β} :
    C x → (∀ a, C (f a)) → C (x >>= f)
  attempt {α : Type} {x : LoggedOp κ σ ε α} : C x → C x.attempt

namespace Compositional

variable {C : ∀ {α : Type}, LoggedOp κ σ ε α → Prop} (hC : Compositional C)

include hC

theorem check (x : Except ε α) : C (LoggedOp.check x) := by
  cases x with
  | error e => exact hC.fail e
  | ok a => exact hC.pure a

theorem map (f : α → β) {x : LoggedOp κ σ ε α} (h : C x) : C (f <$> x) :=
  hC.bind h fun a => hC.pure (f a)

theorem iterate {out : LoggedOp κ σ ε β} {f : α → LoggedOp κ σ ε (α ⊕ β)} (hout : C out)
    (hstep : ∀ a, C (f a)) (n : Nat) (a : α) : C (Steps.iterate out f n a) := by
  induction n generalizing a with
  | zero => exact hout
  | succ n ih =>
    refine hC.bind (hstep a) fun r => ?_
    cases r with
    | inl a => exact ih a
    | inr b => exact hC.pure b

theorem each {f : γ → α → LoggedOp κ σ ε (α ⊕ α)} (hstep : ∀ c a, C (f c a)) (cs : List γ)
    (a : α) : C (Steps.each f cs a) := by
  induction cs generalizing a with
  | nil => exact hC.pure a
  | cons c cs ih =>
    refine hC.bind (hstep c a) fun r => ?_
    cases r with
    | inl a => exact ih a
    | inr a => exact hC.pure a

end Compositional

/-! ## Where a computation leads -/

def Leads (R : σ → σ → Prop) {α : Type} (x : LoggedOp κ σ ε α) : Prop := ∀ s, R s (x s).2.1

theorem leads_compositional {R : σ → σ → Prop} (hrefl : ∀ s, R s s)
    (htrans : ∀ s t u, R s t → R t u → R s u) :
    Compositional (Leads R : ∀ {α : Type}, LoggedOp κ σ ε α → Prop) where
  pure _ s := hrefl s
  fail _ s := hrefl s
  bind {_ _ x f} hx hf s := by
    have hfirst := hx s
    rcases hrun : x s with ⟨_ | a, s', l⟩
    · rw [hrun] at hfirst
      rw [bind_error hrun]
      exact hfirst
    · rw [hrun] at hfirst
      rw [bind_ok hrun]
      exact htrans _ _ _ hfirst (hf a s')
  attempt hx s := hx s

/-! ## What a computation logs -/

def Logs (P : κ → Prop) {α : Type} (x : LoggedOp κ σ ε α) : Prop := ∀ s, ∀ k ∈ (x s).2.2, P k

theorem logs_compositional (P : κ → Prop) :
    Compositional (Logs P : ∀ {α : Type}, LoggedOp κ σ ε α → Prop) where
  pure _ _ _ hk := absurd hk List.not_mem_nil
  fail _ _ _ hk := absurd hk List.not_mem_nil
  bind {_ _ x f} hx hf s k hk := by
    have hfirst := hx s k
    rcases hrun : x s with ⟨_ | a, s', l⟩
    · rw [hrun] at hfirst
      rw [bind_error hrun] at hk
      exact hfirst hk
    · rw [hrun] at hfirst
      rw [bind_ok hrun] at hk
      rcases List.mem_append.1 hk with hk | hk
      · exact hfirst hk
      · exact hf a s' k hk
  attempt hx s := hx s

/-! ## Two runs -/

def Agrees (good : κ → Prop) (shows : κ → Option μ) (R : σ → σ → Prop) {α : Type}
    (x : LoggedOp κ σ ε α) : Prop :=
  ∀ s t, R s t → (∀ k ∈ (x s).2.2, good k) → (∀ k ∈ (x t).2.2, good k) →
    (x s).1 = (x t).1 ∧ R (x s).2.1 (x t).2.1 ∧
      (x s).2.2.filterMap shows = (x t).2.2.filterMap shows

theorem agrees_compositional (good : κ → Prop) (shows : κ → Option μ) (R : σ → σ → Prop) :
    Compositional (Agrees good shows R : ∀ {α : Type}, LoggedOp κ σ ε α → Prop) where
  pure _ _ _ h _ _ := ⟨rfl, h, rfl⟩
  fail _ _ _ h _ _ := ⟨rfl, h, rfl⟩
  bind {_ _ x f} hx hf s t h hs ht := by
    have hfirst := hx s t h
    rcases hxs : x s with ⟨e | a, s', l⟩ <;> rcases hxt : x t with ⟨e' | b, t', m⟩ <;>
      rw [hxs, hxt] at hfirst
    · rw [bind_error hxs] at hs ⊢
      rw [bind_error hxt] at ht ⊢
      obtain ⟨hans, hrest⟩ := hfirst hs ht
      exact ⟨congrArg Except.error (Except.error.inj hans), hrest⟩
    · rw [bind_error hxs] at hs
      rw [bind_ok hxt] at ht
      cases (hfirst hs fun k hk => ht k (List.mem_append_left _ hk)).1
    · rw [bind_ok hxs] at hs
      rw [bind_error hxt] at ht
      cases (hfirst (fun k hk => hs k (List.mem_append_left _ hk)) ht).1
    · rw [bind_ok hxs] at hs ⊢
      rw [bind_ok hxt] at ht ⊢
      obtain ⟨hans, hstate, hlog⟩ := hfirst (fun k hk => hs k (List.mem_append_left _ hk))
        fun k hk => ht k (List.mem_append_left _ hk)
      cases hans
      obtain ⟨hans', hstate', hlog'⟩ := hf a s' t' hstate
        (fun k hk => hs k (List.mem_append_right _ hk))
        fun k hk => ht k (List.mem_append_right _ hk)
      refine ⟨hans', hstate', ?_⟩
      rw [List.filterMap_append, List.filterMap_append, hlog, hlog']
  attempt {_ x} hx s t h hs ht := by
    obtain ⟨hans, hrest⟩ := hx s t h hs ht
    exact ⟨congrArg Except.ok hans, hrest⟩

end LoggedOp
