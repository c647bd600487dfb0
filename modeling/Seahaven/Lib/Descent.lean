import Mathlib.Data.Finset.Card
import Mathlib.Data.Finset.Insert

/-!
# Descents through finitely many places

A descent goes from place to place. Each place has a key and a rank, and is one deeper than the
place before it, unless its key is that of no place so far.

1. `Chain`: such a descent, the last place first.
2. `Chain.length_le`: with finitely many keys and bounded ranks it is bounded.
-/

namespace Descent

variable {α ι : Type*} (key : α → ι) (rank : α → ℕ)

/-- A descent, the last place first. -/
inductive Chain : List α → Prop
  | nil : Chain []
  | fresh {a : α} {s : List α} (hs : Chain s) (ha : ∀ b ∈ s, key b ≠ key a) : Chain (a :: s)
  | deeper {a b : α} {s : List α} (hs : Chain (b :: s)) (ha : rank a = rank b + 1) :
    Chain (a :: b :: s)

variable {key rank} {s : List α} {height : ℕ}

theorem Chain.tail {a : α} (hs : Chain key rank (a :: s)) : Chain key rank s := by
  cases hs with
  | fresh hs _ => exact hs
  | deeper hs _ => exact hs

theorem Chain.replace {a b : α} (hs : Chain key rank (a :: s)) (hkey : key b = key a)
    (hrank : rank b = rank a) : Chain key rank (b :: s) := by
  cases hs with
  | fresh hs ha => exact .fresh hs fun c hc => hkey ▸ ha c hc
  | deeper hs ha => exact .deeper hs (hrank ▸ ha)

theorem Chain.exists_fresh [DecidableEq ι] (hs : Chain key rank s)
    (hrank : ∀ a ∈ s, rank a ≤ height) :
    ∃ fresh : Finset ι, (∀ k ∈ fresh, ∃ b ∈ s, key b = k) ∧
      s.length ≤ fresh.card * (height + 1) ∧
      ∀ a ∈ s.head?, s.length + (height - rank a) ≤ fresh.card * (height + 1) := by
  induction hs with
  | nil => exact ⟨∅, by simp, by simp, by simp⟩
  | @fresh a s hs ha ih =>
    obtain ⟨fresh, hfresh, hlen, -⟩ := ih fun b hb => hrank b (List.mem_cons_of_mem _ hb)
    have hnew : key a ∉ fresh := by
      intro hmem
      obtain ⟨b, hb, heq⟩ := hfresh _ hmem
      exact ha b hb heq
    have hbound : (s.length + 1) + height ≤ (insert (key a) fresh).card * (height + 1) := by
      rw [Finset.card_insert_of_notMem hnew, Nat.add_mul, Nat.one_mul]
      omega
    refine ⟨insert (key a) fresh, fun k hk => ?_, ?_, ?_⟩
    · rcases Finset.mem_insert.1 hk with rfl | hk
      · exact ⟨a, List.mem_cons_self, rfl⟩
      · obtain ⟨b, hb, heq⟩ := hfresh k hk
        exact ⟨b, List.mem_cons_of_mem _ hb, heq⟩
    · rw [List.length_cons]
      omega
    · intro b hb
      obtain rfl := Option.some.inj hb
      rw [List.length_cons]
      omega
  | @deeper a b s hs ha ih =>
    obtain ⟨fresh, hfresh, -, hhead⟩ := ih fun c hc => hrank c (List.mem_cons_of_mem _ hc)
    have hlen := hhead b rfl
    have hle := hrank a List.mem_cons_self
    rw [List.length_cons] at hlen
    refine ⟨fresh, fun k hk => ?_, ?_, ?_⟩
    · obtain ⟨c, hc, heq⟩ := hfresh k hk
      exact ⟨c, List.mem_cons_of_mem _ hc, heq⟩
    · rw [List.length_cons, List.length_cons]
      omega
    · intro c hc
      obtain rfl := Option.some.inj hc
      rw [List.length_cons, List.length_cons]
      omega

/-- **Bounded descent.** A descent has no more places than there are pairs of a key and a rank. -/
theorem Chain.length_le {keys : Finset ι} (hs : Chain key rank s)
    (hkeys : ∀ a ∈ s, key a ∈ keys) (hrank : ∀ a ∈ s, rank a ≤ height) :
    s.length ≤ keys.card * (height + 1) := by
  classical
  obtain ⟨fresh, hfresh, hlen, -⟩ := hs.exists_fresh hrank
  refine hlen.trans (Nat.mul_le_mul_right _ (Finset.card_le_card fun k hk => ?_))
  obtain ⟨b, hb, rfl⟩ := hfresh k hk
  exact hkeys b hb

end Descent
