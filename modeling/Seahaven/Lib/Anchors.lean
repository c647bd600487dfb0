import Mathlib.Data.List.Basic

/-!
# Searching for anchored sequences

A regular expression without alternatives is a sequence of nodes: a letter of a set, a run of
letters of a set, a test that never succeeds, and the two anchors. With a newline letter the
anchors hold at the ends of every line, without one only at the ends of the text.

1. `search` looks for a match anywhere in the text, from left to right.
2. `accepts` says which words the items read whole.
3. Between two anchors, `search` finds exactly the runs of whole lines that are accepted
   (`search_anchored`).
-/

namespace Anchors

/-- What reads letters: one of a set, any number of a set, or nothing ever. -/
inductive Item (α : Type)
  | one (p : α → Bool)
  | many (p : α → Bool)
  | never

/-- An item or an anchor. -/
inductive Node (α : Type)
  | item (i : Item α)
  | bol
  | eol

variable {α : Type}

/-- What `k` reads after any number of letters of the set, tried at every length. `prev` is the
letter before. -/
def run (p : α → Bool) (k : Option α → List α → Bool) : Option α → List α → Bool
  | prev, [] => k prev []
  | prev, c :: w => k prev (c :: w) || (p c && run p k (some c) w)

variable [DecidableEq α]

/-- Whether the nodes match a text from its start on, `prev` being the letter before it. -/
def matchesAt (nl : Option α) : List (Node α) → Option α → List α → Bool
  | [], _, _ => true
  | .item (.one _) :: _, _, [] => false
  | .item (.one p) :: ns, _, c :: w => p c && matchesAt nl ns (some c) w
  | .item (.many p) :: ns, prev, w => run p (matchesAt nl ns) prev w
  | .item .never :: _, _, _ => false
  | .bol :: ns, prev, w => (prev.isNone || prev == nl) && matchesAt nl ns prev w
  | .eol :: ns, prev, w => (w.isEmpty || w.head? == nl) && matchesAt nl ns prev w

def search (nl : Option α) (ns : List (Node α)) : Option α → List α → Bool
  | prev, [] => matchesAt nl ns prev []
  | prev, c :: w => matchesAt nl ns prev (c :: w) || search nl ns (some c) w

/-- Whether the items read a word from its first to its last letter. -/
def accepts : List (Item α) → List α → Bool
  | [], w => w.isEmpty
  | .one _ :: _, [] => false
  | .one p :: is, c :: w => p c && accepts is w
  | .many p :: is, w => run p (fun _ => accepts is) none w
  | .never :: _, _ => false

def Begins (nl : Option α) (before : List α) : Prop := before = [] ∨ before.getLast? = nl

def Ends (nl : Option α) (after : List α) : Prop := after = [] ∨ after.head? = nl

def Lines (nl : Option α) (m w : List α) : Prop :=
  ∃ b a, b ++ m ++ a = w ∧ Begins nl b ∧ Ends nl a

/-! ## Where a search looks -/

/-- The letter before what follows `x`, when `prev` is the letter before `x`. -/
def lastOr (prev : Option α) (x : List α) : Option α := x.getLast?.or prev

omit [DecidableEq α] in
@[simp] theorem lastOr_nil (prev : Option α) : lastOr prev ([] : List α) = prev := rfl

omit [DecidableEq α] in
theorem lastOr_cons (prev : Option α) (c : α) (x : List α) :
    lastOr prev (c :: x) = lastOr (some c) x := by
  unfold lastOr
  rw [List.getLast?_cons]
  cases x.getLast? <;> rfl

variable {prev : Option α} {w : List α}

omit [DecidableEq α] in
theorem run_iff {p : α → Bool} {k : Option α → List α → Bool} :
    run p k prev w = true ↔
      ∃ x y, w = x ++ y ∧ (∀ c ∈ x, p c = true) ∧ k (lastOr prev x) y = true := by
  induction w generalizing prev with
  | nil =>
    constructor
    · intro h
      exact ⟨[], [], rfl, by simp, h⟩
    · rintro ⟨x, y, hxy, -, hk⟩
      obtain ⟨rfl, rfl⟩ := List.append_eq_nil_iff.1 hxy.symm
      exact hk
  | cons c w ih =>
    rw [run, Bool.or_eq_true, Bool.and_eq_true, ih]
    constructor
    · rintro (h | ⟨hc, x, y, rfl, hx, hk⟩)
      · exact ⟨[], c :: w, rfl, by simp, h⟩
      · refine ⟨c :: x, y, rfl, List.forall_mem_cons.2 ⟨hc, hx⟩, ?_⟩
        rwa [lastOr_cons]
    · rintro ⟨x, y, hxy, hx, hk⟩
      cases x with
      | nil =>
        left
        rwa [hxy]
      | cons d x =>
        obtain ⟨rfl, rfl⟩ := List.cons.inj hxy
        right
        rw [lastOr_cons] at hk
        obtain ⟨hc, hx⟩ := List.forall_mem_cons.1 hx
        exact ⟨hc, x, y, rfl, hx, hk⟩

def Item.Reads : Item α → List α → Prop
  | .one p, x => ∃ c, x = [c] ∧ p c = true
  | .many p, x => ∀ c ∈ x, p c = true
  | .never, _ => False

variable {is : List (Item α)}

omit [DecidableEq α] in
theorem accepts_cons {i : Item α} :
    accepts (i :: is) w = true ↔ ∃ x y, w = x ++ y ∧ i.Reads x ∧ accepts is y = true := by
  cases i with
  | one p =>
    cases w with
    | nil =>
      constructor
      · intro h
        exact absurd h Bool.false_ne_true
      · rintro ⟨x, y, hxy, ⟨c, rfl, -⟩, -⟩
        cases hxy
    | cons c w =>
      rw [accepts, Bool.and_eq_true]
      constructor
      · rintro ⟨hc, hw⟩
        exact ⟨[c], w, rfl, ⟨c, rfl, hc⟩, hw⟩
      · rintro ⟨x, y, hxy, ⟨d, rfl, hd⟩, hy⟩
        obtain ⟨rfl, rfl⟩ := List.cons.inj hxy
        exact ⟨hd, hy⟩
  | many p =>
    rw [accepts, run_iff]
    rfl
  | never =>
    constructor
    · intro h
      exact absurd h Bool.false_ne_true
    · rintro ⟨x, y, -, hx, -⟩
      exact hx.elim

variable {nl : Option α}

/-- **Search.** A search tries every place of the text. -/
theorem search_iff {ns : List (Node α)} :
    search nl ns prev w = true ↔
      ∃ b a, w = b ++ a ∧ matchesAt nl ns (lastOr prev b) a = true := by
  induction w generalizing prev with
  | nil =>
    constructor
    · intro h
      exact ⟨[], [], rfl, h⟩
    · rintro ⟨b, a, hba, hm⟩
      obtain ⟨rfl, rfl⟩ := List.append_eq_nil_iff.1 hba.symm
      exact hm
  | cons c w ih =>
    rw [search, Bool.or_eq_true, ih]
    constructor
    · rintro (h | ⟨b, a, rfl, hm⟩)
      · exact ⟨[], c :: w, rfl, h⟩
      · refine ⟨c :: b, a, rfl, ?_⟩
        rwa [lastOr_cons]
    · rintro ⟨b, a, hba, hm⟩
      cases b with
      | nil =>
        left
        rwa [hba]
      | cons d b =>
        obtain ⟨rfl, rfl⟩ := List.cons.inj hba
        right
        rw [lastOr_cons] at hm
        exact ⟨b, a, rfl, hm⟩

theorem matchesAt_items {ns : List (Node α)} (is : List (Item α)) :
    matchesAt nl (is.map .item ++ ns) prev w = true ↔
      ∃ x y, w = x ++ y ∧ accepts is x = true ∧ matchesAt nl ns (lastOr prev x) y = true := by
  induction is generalizing prev w with
  | nil =>
    constructor
    · intro h
      exact ⟨[], w, rfl, rfl, h⟩
    · rintro ⟨x, y, rfl, hx, hm⟩
      obtain rfl := List.isEmpty_iff.1 hx
      exact hm
  | cons i is ih =>
    cases i with
    | one p =>
      cases w with
      | nil =>
        constructor
        · intro h
          exact absurd h Bool.false_ne_true
        · rintro ⟨x, y, hxy, hx, -⟩
          obtain ⟨rfl, rfl⟩ := List.append_eq_nil_iff.1 hxy.symm
          exact hx
      | cons c w =>
        change (p c && matchesAt nl (is.map .item ++ ns) (some c) w) = true ↔ _
        rw [Bool.and_eq_true, ih]
        constructor
        · rintro ⟨hc, x, y, rfl, hx, hm⟩
          refine ⟨c :: x, y, rfl, ?_, ?_⟩
          · rw [accepts, hc, hx]
            rfl
          · rwa [lastOr_cons]
        · rintro ⟨x, y, hxy, hx, hm⟩
          cases x with
          | nil => exact absurd hx Bool.false_ne_true
          | cons d x =>
            obtain ⟨rfl, rfl⟩ := List.cons.inj hxy
            rw [accepts, Bool.and_eq_true] at hx
            rw [lastOr_cons] at hm
            exact ⟨hx.1, x, y, rfl, hx.2, hm⟩
    | many p =>
      change run p (matchesAt nl (is.map .item ++ ns)) prev w = true ↔ _
      rw [run_iff]
      constructor
      · rintro ⟨x, y, rfl, hp, hm⟩
        obtain ⟨x', y', rfl, hx, hm⟩ := ih.1 hm
        refine ⟨x ++ x', y', by rw [List.append_assoc], ?_, ?_⟩
        · rw [accepts, run_iff]
          exact ⟨x, x', rfl, hp, hx⟩
        · unfold lastOr at hm ⊢
          rwa [List.getLast?_append, Option.or_assoc]
      · rintro ⟨x, y, rfl, hx, hm⟩
        rw [accepts, run_iff] at hx
        obtain ⟨u, v, rfl, hp, hv⟩ := hx
        refine ⟨u, v ++ y, by rw [List.append_assoc], hp, ih.2 ⟨v, y, rfl, hv, ?_⟩⟩
        unfold lastOr at hm ⊢
        rwa [List.getLast?_append, Option.or_assoc] at hm
    | never =>
      constructor
      · intro h
        exact absurd h Bool.false_ne_true
      · rintro ⟨x, y, -, hx, -⟩
        exact absurd hx Bool.false_ne_true

/-! ## Between two anchors -/

theorem matchesAt_eol {a : List α} :
    matchesAt nl [.eol] prev a = true ↔ Ends nl a := by
  unfold Ends
  simp [matchesAt, Bool.or_eq_true, List.isEmpty_iff]

omit [DecidableEq α] in
theorem begins_iff {b : List α} :
    Begins nl b ↔ b.getLast? = none ∨ b.getLast? = nl := by
  unfold Begins
  rw [List.getLast?_eq_none_iff]

/-- **Lines.** Between two anchors, a search finds the runs of whole lines that are accepted. -/
theorem search_anchored : search nl (.bol :: (is.map .item ++ [.eol])) none w = true ↔
      ∃ m, Lines nl m w ∧ accepts is m = true := by
  rw [search_iff]
  constructor
  · rintro ⟨b, a, rfl, hm⟩
    rw [matchesAt, Bool.and_eq_true, matchesAt_items] at hm
    obtain ⟨hb, m, a, rfl, hacc, ha⟩ := hm
    refine ⟨m, ⟨b, a, by rw [List.append_assoc], ?_, matchesAt_eol.1 ha⟩, hacc⟩
    rw [begins_iff]
    simpa [lastOr] using hb
  · rintro ⟨m, ⟨b, a, rfl, hb, ha⟩, hacc⟩
    refine ⟨b, m ++ a, by rw [List.append_assoc], ?_⟩
    rw [matchesAt, Bool.and_eq_true, matchesAt_items]
    refine ⟨?_, m, a, rfl, hacc, matchesAt_eol.2 ha⟩
    rw [begins_iff] at hb
    simpa [lastOr] using hb

omit [DecidableEq α] in
theorem lines_self (nl : Option α) (w : List α) : Lines nl w w :=
  ⟨[], [], by simp, .inl rfl, .inl rfl⟩

end Anchors
