import Mathlib.Order.WellFounded
import Seahaven.Lib.Op

/-!
# Recursion with fuel

A computation that calls itself is written over its recursive calls (`step`), and run with an amount
of fuel that bounds how deep the calls are nested (`run`). Where the calls go down in a well-founded
relation, every run settles: from some amount of fuel on, it does the same, and not for want of fuel
(`settles_run`). What it does then is the recursion itself (`limit_run`).

`Settles bad p x s` tells more than that, so that one induction serves: in the state `s` the runs
`p` settle on what `x` does, which ends with none of the failures that are `bad`.
-/

namespace Fuel

variable {σ ε α β ι : Type}

/-- From some amount of fuel on, the runs do what `x` does, and that is no bad failure. -/
structure Settles (bad : ε → Prop) (p : Nat → Op σ ε α) (x : Op σ ε α) (s : σ) : Prop where
  eventually : ∃ n, ∀ m, n ≤ m → p m s = x s
  good : ∀ e, (x s).1 = .error e → ¬ bad e

variable {bad : ε → Prop} {p : Nat → Op σ ε α} {x : Op σ ε α} {s : σ}

theorem settles_const (h : ∀ e, (x s).1 = .error e → ¬ bad e) : Settles bad (fun _ => x) x s :=
  ⟨⟨0, fun _ _ => rfl⟩, h⟩

theorem settles_pure (a : α) : Settles bad (fun _ => pure a) (pure a) s :=
  settles_const fun _ h => nomatch h

theorem Settles.bind {q : Nat → α → Op σ ε β} {y : α → Op σ ε β} (hp : Settles bad p x s)
    (hq : ∀ a s', x s = (.ok a, s') → Settles bad (fun n => q n a) (y a) s') :
    Settles bad (fun n => p n >>= q n) (x >>= y) s := by
  obtain ⟨⟨n, hn⟩, hgood⟩ := hp
  rcases hx : x s with ⟨_ | a, s'⟩
  · next e =>
    refine ⟨⟨n, fun m hm => ?_⟩, fun e' he' => ?_⟩
    · rw [Op.bind_error hx, Op.bind_error ((hn m hm).trans hx)]
    · rw [Op.bind_error hx] at he'
      cases he'
      exact hgood e (by rw [hx])
  · obtain ⟨⟨k, hk⟩, hgood'⟩ := hq a s' hx
    refine ⟨⟨max n k, fun m hm => ?_⟩, fun e' he' => ?_⟩
    · rw [Op.bind_ok hx, Op.bind_ok ((hn m (le_trans (le_max_left n k) hm)).trans hx)]
      exact hk m (le_trans (le_max_right n k) hm)
    · rw [Op.bind_ok hx] at he'
      exact hgood' e' he'

theorem Settles.ite {c : Prop} [Decidable c] {q : Nat → Op σ ε α} {y : Op σ ε α}
    (hp : c → Settles bad p x s) (hq : ¬ c → Settles bad q y s) :
    Settles bad (fun n => if c then p n else q n) (if c then x else y) s := by
  split_ifs with hc
  · exact hp hc
  · exact hq hc

/-! ## Runs -/

def run (out : ε) (step : (ι → Op σ ε α) → ι → Op σ ε α) : Nat → ι → Op σ ε α
  | 0, _ => Op.check (.error out)
  | n + 1, i => step (run out step n) i

noncomputable def limit (p : Nat → Op σ ε α) : Op σ ε α := fun s =>
  open Classical in
  if h : ∃ r n, ∀ m, n ≤ m → p m s = r then h.choose else p 0 s

theorem limit_eq (h : Settles bad p x s) : limit p s = x s := by
  obtain ⟨n, hn⟩ := h.eventually
  have hex : ∃ r n, ∀ m, n ≤ m → p m s = r := ⟨x s, n, hn⟩
  obtain ⟨k, hk⟩ := hex.choose_spec
  rw [limit, dif_pos hex, ← hk (max n k) (le_max_right n k), hn (max n k) (le_max_left n k)]

/-- The recursive calls go down in `r`: where they settle, so does the computation. -/
def Recurses (bad : ε → Prop) (r : ι → ι → Prop) (step : (ι → Op σ ε α) → ι → Op σ ε α) : Prop :=
  ∀ (i : ι) (f : Nat → ι → Op σ ε α) (g : ι → Op σ ε α),
    (∀ j, r j i → ∀ s, Settles bad (fun n => f n j) (g j) s) →
    ∀ s, Settles bad (fun n => step (f n) i) (step g i) s

variable {out : ε} {step : (ι → Op σ ε α) → ι → Op σ ε α} {r : ι → ι → Prop}

theorem settles_step (hwf : WellFounded r) (h : Recurses bad r step) (i : ι) :
    ∀ s, Settles bad (fun n => run out step n i) (step (fun j => limit fun n => run out step n j) i)
      s := by
  induction i using hwf.induction with
  | _ i ih =>
    intro s
    have hcalls : ∀ j, r j i → ∀ s,
        Settles bad (fun n => run out step n j) (limit fun n => run out step n j) s := by
      intro j hj s
      have hj := ih j hj s
      have hlimit := limit_eq hj
      refine ⟨?_, fun e he => hj.good e (by rw [← hlimit]; exact he)⟩
      rw [hlimit]
      exact hj.eventually
    obtain ⟨⟨n, hn⟩, hgood⟩ := h i (run out step) _ hcalls s
    refine ⟨⟨n + 1, fun m hm => ?_⟩, hgood⟩
    obtain ⟨m, rfl⟩ : ∃ k, m = k + 1 := ⟨m - 1, by omega⟩
    exact hn m (by omega)

/-- **The recursion.** What the runs settle on calls itself. -/
theorem limit_run (hwf : WellFounded r) (h : Recurses bad r step) (i : ι) :
    (limit fun n => run out step n i) = step (fun j => limit fun n => run out step n j) i :=
  funext fun s => limit_eq (settles_step hwf h i s)

/-- **Termination.** Every run settles. -/
theorem settles_run (hwf : WellFounded r) (h : Recurses bad r step) (i : ι) (s : σ) :
    Settles bad (fun n => run out step n i) (limit fun n => run out step n i) s := by
  rw [limit_run hwf h]
  exact settles_step hwf h i s

end Fuel
