import Mathlib.Data.List.Infix
import Mathlib.Logic.Function.Basic

/-!
# Memo tables over a state that changes

A table keeps what a partial function of a state and a key answered first, and is not told when the
state changes.

1. `Memoized.ask`: the memoized function, `Use` its uses between changes of the state.
2. `faithfulAlong_iff`: the table can be told from the function exactly where an answer that was given
   once has changed.
-/

namespace Seahaven.Lib

/-- A state, with a table of answers given over it. -/
structure Memoized (σ κ ν : Type*) where
  state : σ
  table : κ → Option ν

/-- A use of a memoized function: a question, or a change of the state. -/
inductive Use (κ α : Type*)
  | ask (k : κ)
  | act (a : α)

namespace Memoized

variable {σ κ ν α : Type*} [DecidableEq κ] (find : σ → κ → Option ν) (next : α → σ → σ)

/-- The table's answer, or the function's, which is kept. -/
def ask (m : Memoized σ κ ν) (k : κ) : Option ν × Memoized σ κ ν :=
  match m.table k with
  | some v => (some v, m)
  | none =>
    match find m.state k with
    | some v => (some v, { m with table := Function.update m.table k (some v) })
    | none => (none, m)

def use (m : Memoized σ κ ν) : Use κ α → Memoized σ κ ν
  | .ask k => (m.ask find k).2
  | .act a => { m with state := next a m.state }

def run (m : Memoized σ κ ν) (uses : List (Use κ α)) : Memoized σ κ ν :=
  uses.foldl (use find next) m

def Faithful (m : Memoized σ κ ν) : Prop := ∀ k, (m.ask find k).1 = find m.state k

variable {find next} {m : Memoized σ κ ν}

/-! ## One use -/

theorem faithful_iff_table :
    m.Faithful find ↔ ∀ k v, m.table k = some v → find m.state k = some v := by
  constructor
  · intro h k v hv
    rw [← h k, ask, hv]
  · intro h k
    unfold ask
    cases hv : m.table k with
    | some v => exact (h k v hv).symm
    | none => cases find m.state k <;> rfl

theorem ask_cases (find : σ → κ → Option ν) (m : Memoized σ κ ν) (k : κ) :
    (∃ v, m.table k = some v ∧ m.ask find k = (some v, m)) ∨
      (m.table k = none ∧ m.ask find k = (none, m)) ∨
      ∃ v, m.table k = none ∧ find m.state k = some v ∧
        m.ask find k = (some v, { m with table := Function.update m.table k (some v) }) := by
  unfold ask
  cases ht : m.table k with
  | some v => exact .inl ⟨v, rfl, rfl⟩
  | none =>
    cases hf : find m.state k with
    | none => exact .inr (.inl ⟨rfl, rfl⟩)
    | some v => exact .inr (.inr ⟨v, rfl, rfl, rfl⟩)

theorem use_ask (k : κ) : m.use find next (.ask k) = (m.ask find k).2 := rfl

variable {k : κ} {v : ν}

theorem table_use (h : m.table k = some v) (u : Use κ α) :
    (m.use find next u).table k = some v := by
  cases u with
  | act a => exact h
  | ask k' =>
    rw [use_ask]
    rcases ask_cases find m k' with ⟨w, -, hask⟩ | ⟨-, hask⟩ | ⟨w, ht, -, hask⟩
    · rw [hask]
      exact h
    · rw [hask]
      exact h
    · have hne : k ≠ k' := by
        rintro rfl
        rw [ht] at h
        cases h
      rw [hask]
      exact (Function.update_of_ne hne _ _).trans h

theorem table_ask (h : (m.ask find k).1 = some v) :
    (m.ask find k).2.table k = some v := by
  rcases ask_cases find m k with ⟨w, ht, hask⟩ | ⟨-, hask⟩ | ⟨w, -, -, hask⟩
  · rw [hask] at h ⊢
    exact ht.trans h
  · rw [hask] at h
    cases h
  · rw [hask] at h ⊢
    exact (Function.update_self _ _ _).trans h

theorem table_of_use {u : Use κ α} (h : (m.use find next u).table k = some v) :
    m.table k = some v ∨ u = .ask k ∧ find m.state k = some v := by
  cases u with
  | act a => exact .inl h
  | ask k' =>
    rw [use_ask] at h
    rcases ask_cases find m k' with ⟨w, -, hask⟩ | ⟨-, hask⟩ | ⟨w, -, hf, hask⟩
    · rw [hask] at h
      exact .inl h
    · rw [hask] at h
      exact .inl h
    · rw [hask] at h
      by_cases hk : k = k'
      · subst hk
        have hwv : some w = some v := (Function.update_self k (some w) m.table).symm.trans h
        exact .inr ⟨rfl, hf.trans hwv⟩
      · exact .inl ((Function.update_of_ne hk _ _).symm.trans h)

/-! ## Runs -/

@[simp] theorem run_append (uses uses' : List (Use κ α)) :
    m.run find next (uses ++ uses') = (m.run find next uses).run find next uses' :=
  List.foldl_append

theorem run_cons (u : Use κ α) (uses : List (Use κ α)) :
    m.run find next (u :: uses) = (m.use find next u).run find next uses := rfl

theorem table_run (uses : List (Use κ α)) (h : m.table k = some v) :
    (m.run find next uses).table k = some v := by
  induction uses generalizing m with
  | nil => exact h
  | cons u uses ih => exact ih (table_use h u)

theorem exists_of_table_run (hempty : ∀ k, m.table k = none) {uses : List (Use κ α)}
    (h : (m.run find next uses).table k = some v) :
    ∃ before after, uses = before ++ .ask k :: after ∧
      find (m.run find next before).state k = some v := by
  induction uses using List.reverseRecOn with
  | nil =>
    have hnone := hempty k
    rw [show m.table k = some v from h] at hnone
    cases hnone
  | append_singleton uses u ih =>
    rw [run_append] at h
    have hlast : ((m.run find next uses).use find next u).table k = some v := h
    rcases table_of_use hlast with hbefore | ⟨rfl, hfind⟩
    · obtain ⟨before, after, rfl, hfind⟩ := ih hbefore
      exact ⟨before, after ++ [u], by simp, hfind⟩
    · exact ⟨uses, [], rfl, hfind⟩

/-- **When a memo table is faithful.** Throughout a run from an empty table, exactly where every
answer the function has given to a question it still gives. -/
theorem faithfulAlong_iff (hempty : ∀ k, m.table k = none) (uses : List (Use κ α)) :
    (∀ pre, pre <+: uses → (m.run find next pre).Faithful find) ↔
      ∀ before k after, before ++ .ask k :: after <+: uses → ∀ v,
        find (m.run find next before).state k = some v →
        find (m.run find next (before ++ .ask k :: after)).state k = some v := by
  constructor
  · intro h before k after hpre v hv
    have hbefore := h before ((List.prefix_append _ _).trans hpre) k
    have htable := table_ask (hbefore.trans hv)
    refine faithful_iff_table.1 (h _ hpre) k v ?_
    rw [run_append, run_cons]
    exact table_run after htable
  · intro h pre hpre
    refine faithful_iff_table.2 fun k v htable => ?_
    obtain ⟨before, after, rfl, hfind⟩ := exists_of_table_run hempty htable
    exact h before k after hpre v hfind

end Memoized

end Seahaven.Lib
