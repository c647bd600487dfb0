import Mathlib.Logic.Hydra
import Mathlib.Logic.Function.Basic

/-!
# Readers and writers of streams

A worker reads and writes letters one at a time and ends after finitely many, how many may depend
on what it reads.

1. `out` is what a worker writes when it reads a given stream to its end.
2. `Below` says what a worker can become in one step. It is well founded, and so is a step of one
   of finitely many (`wellFounded_update`).
-/

namespace Streams

/-- A worker: it has ended, or it writes a letter, or it reads one, or the end of its input. -/
inductive Worker (β : Type)
  | done
  | write (b : β) (next : Worker β)
  | read (next : Option β → Worker β)

namespace Worker

variable {β : Type}

/-- What a worker writes when it reads a stream, and then the end of it as often as it likes. -/
def out : Worker β → List β → List β
  | .done, _ => []
  | .write b next, w => b :: out next w
  | .read next, [] => out (next none) []
  | .read next, b :: w => out (next (some b)) w

/-- What a worker can become in one step: a writer may also be cut off. -/
inductive Below : Worker β → Worker β → Prop
  | write (b : β) (next : Worker β) : Below next (.write b next)
  | read (next : Option β → Worker β) (x : Option β) : Below (next x) (.read next)
  | cut (b : β) (next : Worker β) : Below .done (.write b next)

theorem below_wf : WellFounded (Below (β := β)) := by
  have hdone : Acc Below (.done : Worker β) := ⟨_, fun _ h => nomatch h⟩
  refine ⟨fun p => ?_⟩
  induction p with
  | done => exact hdone
  | write b next ih =>
    refine ⟨_, fun q hq => ?_⟩
    cases hq with
    | write => exact ih
    | cut => exact hdone
  | read next ih =>
    refine ⟨_, fun q hq => ?_⟩
    cases hq with
    | read _ x => exact ih x

end Worker

open Relation in
theorem wellFounded_update {α : Type} {r : α → α → Prop} (hr : WellFounded r) (n : Nat) :
    WellFounded fun f' f : Nat → α =>
      ∃ i, i < n ∧ ∃ a, r a (f i) ∧ f' = Function.update f i a := by
  have hirr : Std.Irrefl r := ⟨fun a h => hr.irrefl.irrefl a h⟩
  refine Subrelation.wf (r := InvImage (CutExpand r) fun f => (Multiset.range n).map f) ?_
    (InvImage.wf _ hr.cutExpand)
  rintro f' f ⟨i, hi, a, ha, rfl⟩
  have hmem : i ∈ Multiset.range n := Multiset.mem_range.2 hi
  have hrest : ((Multiset.range n).erase i).map (Function.update f i a) =
      ((Multiset.range n).erase i).map f := by
    refine Multiset.map_congr rfl fun j hj => Function.update_of_ne ?_ _ _
    exact ((Multiset.nodup_range n).mem_erase_iff.1 hj).1
  change CutExpand r ((Multiset.range n).map (Function.update f i a)) ((Multiset.range n).map f)
  rw [← Multiset.cons_erase hmem, Multiset.map_cons, Multiset.map_cons, hrest,
    Function.update_self]
  exact ⟨{a}, f i, by simpa using ha, by
    rw [← Multiset.singleton_add, ← Multiset.singleton_add]
    simp only [add_comm, add_left_comm, add_assoc]⟩

end Streams
