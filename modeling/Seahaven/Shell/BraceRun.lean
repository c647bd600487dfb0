import Mathlib.Tactic.SplitIfs
import Mathlib.Tactic.Linarith
import Mathlib.Tactic.Ring
import Seahaven.Shell.Braces

/-!
# What a brace expansion makes

1. `Sequence.values`, `Sequence.Sound`: the values of a sequence, and the sequences whose iterator
   yields them.
2. `productOf`: the strings that an expression stands for, in order.
3. `piecesFit`, `piecesSafe`: the expressions that are not too large, and those of which nothing
   unsound is collected before that is known.
4. `meets_iff`: the expansion does what it should exactly if it is safe.
-/

namespace Seahaven.Shell.Braces

/-! ## Descending sequences -/

variable {x : Int}

section Descending

variable {α : Type} (next : α → Except Stop (Option α)) (code : α → Int) (e lo hi : Int) (d : Nat)

/-- From elements between `e` and `hi` the iterator goes down by `d`, and fails below `lo`. -/
structure Descends : Prop where
  overflow : ∀ x, e ≤ code x → code x ≤ hi → code x - d < lo → next x = .error .overflow
  step : ∀ x, e ≤ code x → code x ≤ hi → lo ≤ code x - d → e ≤ code x - d →
    ∃ y, next x = .ok (some y) ∧ code y = code x - d
  stop : ∀ x, e ≤ code x → code x ≤ hi → lo ≤ code x - d → code x - d < e → next x = .ok none

variable {next code e lo hi d}

theorem steps_pred (hd : 0 < d) (h : e ≤ x - d) :
    (x - e).toNat / d = (x - d - e).toNat / d + 1 := by
  have heq : (x - e).toNat = (x - d - e).toNat + d := by omega
  rw [heq, Nat.add_div_right _ hd]

theorem steps_zero (hx : e ≤ x) (h : x - d < e) : (x - e).toNat / d = 0 :=
  Nat.div_eq_of_lt (by omega)

theorem Descends.elements (hn : Descends next code e lo hi d) (hd : 0 < d) :
    ∀ (fuel : Nat) (x : α), e ≤ code x → code x ≤ hi → (code x - e).toNat / d + 1 ≤ fuel →
      lo ≤ code x - (d * ((code x - e).toNat / d + 1) : Nat) →
      ∃ l, successors next fuel x = .ok l ∧ l.map code =
        (List.range ((code x - e).toNat / d + 1)).map fun j : Nat => code x - (d * j : Nat) := by
  intro fuel
  induction fuel with
  | zero => intro x _ _ hf; exact absurd hf (Nat.not_succ_le_zero _)
  | succ fuel ih =>
    intro x hx hhi hf hlo
    unfold successors
    by_cases hnext : e ≤ code x - d
    · rw [steps_pred hd hnext] at hf hlo ⊢
      rw [Nat.mul_succ] at hlo
      obtain ⟨y, hy, hcode⟩ := hn.step x hx hhi (by omega) hnext
      rw [← hcode] at hf hlo ⊢
      obtain ⟨l, hl, hmap⟩ := ih y (by omega) (by omega) (by omega) (by omega)
      refine ⟨x :: l, ?_, ?_⟩
      · rw [hy]
        dsimp only
        rw [hl]
        rfl
      · rw [List.range_succ_eq_map, List.map_cons, List.map_cons, hmap, List.map_map]
        refine congrArg₂ _ (by simp) (List.map_congr_left fun j _ => ?_)
        simp only [Function.comp, Nat.succ_eq_add_one, Nat.mul_succ]
        omega
    · rw [steps_zero hx (not_le.1 hnext)] at hlo ⊢
      refine ⟨[x], ?_, by simp⟩
      rw [hn.stop x hx hhi (by simpa using hlo) (not_le.1 hnext)]

theorem Descends.fails (hn : Descends next code e lo hi d) (hd : 0 < d) :
    ∀ (fuel : Nat) (x : α), e ≤ code x → code x ≤ hi →
      code x - (d * ((code x - e).toNat / d + 1) : Nat) < lo →
      ∃ err, successors next fuel x = .error err ∧ err ≠ .tooMuchData := by
  intro fuel
  induction fuel with
  | zero => exact fun _ _ _ _ => ⟨_, rfl, nofun⟩
  | succ fuel ih =>
    intro x hx hhi hlo
    unfold successors
    by_cases hover : code x - d < lo
    · rw [hn.overflow x hx hhi hover]
      exact ⟨_, rfl, nofun⟩
    · by_cases hnext : e ≤ code x - d
      · obtain ⟨y, hy, hcode⟩ := hn.step x hx hhi (not_lt.1 hover) hnext
        rw [steps_pred hd hnext, Nat.mul_succ, ← hcode] at hlo
        obtain ⟨err, herr, hne⟩ := ih y (by omega) (by omega) (by omega)
        rw [hy]
        dsimp only
        rw [herr]
        exact ⟨err, rfl, hne⟩
      · rw [steps_zero hx (not_le.1 hnext)] at hlo
        exact absurd (by simpa using hlo) hover

end Descending

/-! ## Sequences -/

theorem stepOf_pos (increment : Int64) : 0 < stepOf increment := by
  unfold stepOf
  split_ifs <;> omega

theorem stepOf_le (increment : Int64) : stepOf increment ≤ 2 ^ 63 := by
  have h₁ := increment.le_toInt
  have h₂ := increment.toInt_lt
  unfold stepOf
  split_ifs <;> omega

/-- The values from `s` to `e` by steps of `k`, up or down, up to the last that is not past `e`. -/
def valuesOf (s e : Int) (k : Nat) : List Int :=
  if s ≤ e then (List.range ((e - s).toNat / k + 1)).map fun j : Nat => s + (k * j : Nat)
  else (List.range ((s - e).toNat / k + 1)).map fun j : Nat => s - (k * j : Nat)

theorem length_valuesOf (s e : Int) (k : Nat) :
    (valuesOf s e k).length = (e - s).natAbs / k + 1 := by
  unfold valuesOf
  split_ifs with h
  · rw [List.length_map, List.length_range, show (e - s).toNat = (e - s).natAbs by omega]
  · rw [List.length_map, List.length_range, show (s - e).toNat = (e - s).natAbs by omega]

namespace Sequence

def values : Sequence → List (List Char)
  | numbers start «end» increment =>
    (valuesOf start.toInt «end».toInt (stepOf increment)).map numberText
  | chars start «end» increment =>
    (valuesOf start.code «end».code (stepOf increment)).map fun n => [Char.ofNat n.toNat]

/-- The sequences whose iterator yields their values: the ascending ones, and the descending ones
for which the step keeps its value in the type that it is cast to and the element after the last
does not overflow. Letters may also lose the high bits of a step that passes the end at once. -/
def Sound : Sequence → Prop
  | numbers start «end» increment =>
    «end».toInt < start.toInt → stepOf increment < 2 ^ 63 ∧
      -2 ^ 63 ≤ start.toInt - (stepOf increment *
        ((start.toInt - «end».toInt).toNat / stepOf increment + 1) : Nat)
  | chars start «end» increment =>
    «end».code < start.code → 0 < stepOf increment % 2 ^ 32 ∧
      (start.code - «end».code) / (stepOf increment % 2 ^ 32) =
        (start.code - «end».code) / stepOf increment ∧
      stepOf increment % 2 ^ 32 *
        ((start.code - «end».code) / (stepOf increment % 2 ^ 32) + 1) ≤ start.code

end Sequence

variable {k : Nat}

theorem asI64_of_lt (h : k < 2 ^ 63) : asI64 k = k := by
  unfold asI64
  exact Int.bmod_eq_of_le (by omega) (by omega)

theorem asI64_of_eq (h : k = 2 ^ 63) : asI64 k = -2 ^ 63 := by
  rw [h]
  decide

theorem descends_numbers (e : Int) (hk : 0 < k) (hk' : k < 2 ^ 63) :
    Descends (numberBelow e (asI64 k)) id e (-2 ^ 63) (2 ^ 63 - 1) k := by
  rw [asI64_of_lt hk']
  unfold numberBelow
  constructor
  · intro x _ _ hover
    exact if_pos (.inl hover)
  · intro x _ hhi hlo hnext
    refine ⟨x - k, ?_, rfl⟩
    dsimp only [id] at hhi hlo hnext ⊢
    rw [if_neg (by omega), if_pos hnext]
  · intro x _ hhi hlo hnext
    dsimp only [id] at hhi hlo hnext ⊢
    rw [if_neg (by omega), if_neg (by omega)]

theorem numbers_fail_min (e : Int) (fuel : Nat) (hlo : -2 ^ 63 ≤ x) (he : e < x) :
    ∃ err, successors (numberBelow e (asI64 (2 ^ 63))) fuel x = .error err ∧
      err ≠ .tooMuchData := by
  have hover : ∀ (fuel : Nat) {x : Int}, 0 ≤ x →
      ∃ err, successors (numberBelow e (asI64 (2 ^ 63))) fuel x = .error err ∧
        err ≠ .tooMuchData := by
    intro fuel x hx
    cases fuel with
    | zero => exact ⟨_, rfl, nofun⟩
    | succ fuel =>
      unfold successors numberBelow
      rw [asI64_of_eq rfl]
      dsimp only
      rw [if_pos (by omega)]
      exact ⟨_, rfl, nofun⟩
  by_cases hx : 0 ≤ x
  · exact hover fuel hx
  · cases fuel with
    | zero => exact ⟨_, rfl, nofun⟩
    | succ fuel =>
      obtain ⟨err, herr, hne⟩ := hover fuel (x := x + 2 ^ 63) (by omega)
      rw [asI64_of_eq rfl] at herr ⊢
      refine ⟨err, ?_, hne⟩
      unfold successors
      have hnext : numberBelow e (-2 ^ 63) x = .ok (some (x + 2 ^ 63)) := by
        unfold numberBelow
        dsimp only
        rw [if_neg (by omega), if_pos (by omega)]
        norm_num
      rw [hnext]
      dsimp only
      rw [herr]
      rfl

theorem Letter.code_lt (l : Letter) : l.code < 128 := by
  have h := l.isLetter
  change (decide (l.char.val ≥ 'A'.val ∧ l.char.val ≤ 'Z'.val) ||
    (decide (l.char.val ≥ 'a'.val) && decide (l.char.val ≤ 'z'.val))) = true at h
  unfold code
  simp only [Bool.or_eq_true, Bool.and_eq_true, decide_eq_true_eq] at h
  have hval : l.char.toNat = l.char.val.toNat := rfl
  rcases h with ⟨_, h⟩ | ⟨_, h⟩
  · have := UInt32.le_iff_toNat_le.1 h
    simp at this
    omega
  · have := UInt32.le_iff_toNat_le.1 h
    simp at this
    omega

theorem char_le_iff {a b : Char} : a ≤ b ↔ a.toNat ≤ b.toNat :=
  UInt32.le_iff_toNat_le

theorem charFromU32_of_lt {n : Nat} (h : n < 128) :
    charFromU32 n = some (Char.ofNat n) ∧ (Char.ofNat n).toNat = n := by
  have hv : n.isValidChar := .inl (by omega)
  refine ⟨if_pos hv, ?_⟩
  rw [show Char.ofNat n = Char.ofNatAux n hv from dif_pos hv]
  rfl

theorem descends_chars (e : Letter) {m : Nat} (hm : 0 < m) :
    Descends (charBelow e.char m) (fun c => (c.toNat : Int)) e.code 0 127 m := by
  unfold charBelow Letter.code
  constructor
  · intro x _ _ hover
    exact if_pos (by omega)
  · intro x _ hhi hlo hnext
    obtain ⟨hc, hcode⟩ := charFromU32_of_lt (n := x.toNat - m) (by omega)
    refine ⟨Char.ofNat (x.toNat - m), ?_, by omega⟩
    rw [if_neg (by omega), hc, Option.filter_some, if_pos]
    rw [decide_eq_true_eq, char_le_iff, hcode]
    omega
  · intro x _ hhi hlo hnext
    obtain ⟨hc, hcode⟩ := charFromU32_of_lt (n := x.toNat - m) (by omega)
    rw [if_neg (by omega), hc, Option.filter_some, if_neg]
    rw [decide_eq_true_eq, char_le_iff, hcode]
    omega

theorem chars_diverge (e : Letter) (fuel : Nat) {x : Char} (he : e.char ≤ x) :
    successors (charBelow e.char 0) fuel x = .error .outOfFuel := by
  induction fuel with
  | zero => rfl
  | succ fuel ih =>
    have hnext : charBelow e.char 0 x = .ok (some x) := by
      unfold charBelow charFromU32
      have hv : x.toNat.isValidChar := x.valid
      rw [if_neg (Nat.not_lt_zero _), Nat.sub_zero, if_pos hv, Char.ofNat_toNat,
        Option.filter_some, if_pos (by simpa using he)]
    unfold successors
    rw [hnext]
    dsimp only
    rw [ih]
    rfl

theorem letters_eq (l : List Char) :
    l.map (fun c => [c]) = (l.map fun c => (c.toNat : Int)).map fun n => [Char.ofNat n.toNat] := by
  rw [List.map_map]
  refine List.map_congr_left fun c _ => ?_
  simp

theorem descending_eq_iff {s e : Nat} (hs : s < 128) :
    ((List.range ((s - e) / (k % 2 ^ 32) + 1)).map fun j : Nat =>
        (s : Int) - (k % 2 ^ 32 * j : Nat)) =
      ((List.range ((s - e) / k + 1)).map fun j : Nat => (s : Int) - (k * j : Nat)) ↔
    (s - e) / (k % 2 ^ 32) = (s - e) / k := by
  constructor
  · intro h
    have hlen := congrArg List.length h
    simpa using hlen
  · intro h
    rw [h]
    by_cases hk : k < 2 ^ 32
    · rw [Nat.mod_eq_of_lt hk]
    · rw [Nat.div_eq_of_lt (by omega : s - e < k)]
      simp

variable {s : Sequence} {fuel : Nat}

namespace Sequence

def fields (s : Sequence) : Nat := s.values.length

theorem fields_numbers (s e inc : Int64) :
    (numbers s e inc).fields = (e.toInt - s.toInt).natAbs / stepOf inc + 1 := by
  unfold fields values
  rw [List.length_map, length_valuesOf]

theorem fields_chars (s e : Letter) (inc : Int64) :
    (chars s e inc).fields = ((e.code : Int) - s.code).natAbs / stepOf inc + 1 := by
  unfold fields values
  rw [List.length_map, length_valuesOf]

theorem elements_of_sound (hs : s.Sound) (hf : s.fields ≤ fuel) :
    s.elements fuel = .ok s.values := by
  cases s with
  | numbers start «end» inc =>
    have hpos := stepOf_pos inc
    have h₁ := start.toInt_lt
    rw [fields_numbers] at hf
    unfold elements Braces.numbers values valuesOf
    dsimp only
    by_cases hle : start.toInt ≤ «end».toInt
    · rw [if_pos (Int64.le_iff_toInt_le.2 hle), if_pos hle]
      rfl
    · obtain ⟨hk, hlo⟩ := hs (not_le.1 hle)
      have hspan : («end».toInt - start.toInt).natAbs = (start.toInt - «end».toInt).toNat := by
        omega
      rw [hspan] at hf
      obtain ⟨l, hl, hmap⟩ := (descends_numbers «end».toInt hpos hk).elements hpos fuel
        start.toInt (le_of_not_ge hle) (by dsimp only [id]; omega) hf hlo
      rw [if_neg (fun h => hle (Int64.le_iff_toInt_le.1 h)), if_neg hle, hl]
      rw [List.map_id] at hmap
      rw [hmap]
      rfl
  | chars start «end» inc =>
    have hpos := stepOf_pos inc
    have h₁ := start.code_lt
    rw [fields_chars] at hf
    unfold elements Braces.chars values valuesOf
    dsimp only
    by_cases hle : start.code ≤ «end».code
    · rw [if_pos (char_le_iff.2 hle), if_pos (by exact_mod_cast hle)]
      rfl
    · obtain ⟨hm, hq, hlo⟩ := hs (not_le.1 hle)
      have hspan : ((«end».code : Int) - start.code).natAbs = start.code - «end».code := by
        omega
      have hspan' : ((start.code : Int) - «end».code).toNat = start.code - «end».code := by
        omega
      rw [hspan] at hf
      obtain ⟨l, hl, hmap⟩ := (descends_chars «end» hm).elements hm fuel start.char
        (by unfold Letter.code at *; omega) (by unfold Letter.code at *; omega)
        (by change (((start.code : Int) - «end».code).toNat / _ + 1 ≤ fuel); rw [hspan', hq]; exact hf)
        (by
          change 0 ≤ (start.code : Int) - (_ * (((start.code : Int) - «end».code).toNat / _ + 1) : Nat)
          rw [hspan']
          omega)
      rw [if_neg (fun h => hle (char_le_iff.1 h)), if_neg (by exact_mod_cast hle), hl, hspan']
      change Except.ok (l.map fun c => [c]) = _
      change l.map _ = (List.range ((((start.code : Int) - «end».code).toNat) / _ + 1)).map
        (fun j : Nat => (start.code : Int) - _) at hmap
      rw [letters_eq, hmap, hspan', (descending_eq_iff h₁).2 hq]

theorem elements_of_not_sound (hs : ¬s.Sound) (hf : 128 ≤ fuel) :
    (∃ err, s.elements fuel = .error err ∧ err ≠ .tooMuchData) ∨
      ∃ l, s.elements fuel = .ok l ∧ l ≠ s.values := by
  cases s with
  | numbers start «end» inc =>
    have hpos := stepOf_pos inc
    have h₁ := start.toInt_lt
    have h₂ := start.le_toInt
    unfold Sound at hs
    push Not at hs
    obtain ⟨hlt, hs⟩ := hs
    have hfails : ∃ err, successors (numberBelow «end».toInt (asI64 (stepOf inc))) fuel
        start.toInt = .error err ∧ err ≠ .tooMuchData := by
      by_cases hk : stepOf inc < 2 ^ 63
      · exact (descends_numbers «end».toInt hpos hk).fails hpos fuel start.toInt hlt.le
          (by dsimp only [id]; omega) (hs hk)
      · rw [show stepOf inc = 2 ^ 63 from le_antisymm (stepOf_le inc) (not_lt.1 hk)]
        exact numbers_fail_min _ fuel h₂ hlt
    obtain ⟨err, herr, hne⟩ := hfails
    refine .inl ⟨err, ?_, hne⟩
    unfold elements Braces.numbers
    dsimp only
    rw [if_neg (fun h => absurd (Int64.le_iff_toInt_le.1 h) (not_le.2 hlt)), herr]
    rfl
  | chars start «end» inc =>
    have hpos := stepOf_pos inc
    have h₁ := start.code_lt
    unfold Sound at hs
    push Not at hs
    obtain ⟨hlt, hs⟩ := hs
    have hnot : ¬start.char ≤ «end».char := fun h => absurd (char_le_iff.1 h) (not_le.2 hlt)
    have hspan' : ((start.code : Int) - «end».code).toNat = start.code - «end».code := by
      omega
    unfold elements Braces.chars
    dsimp only
    rw [if_neg hnot]
    by_cases hm : 0 < stepOf inc % 2 ^ 32
    · have hn := descends_chars «end» hm
      have hle : («end».code : Int) ≤ start.code := by omega
      have hhi : (start.code : Int) ≤ 127 := by omega
      by_cases hlo : stepOf inc % 2 ^ 32 *
          ((start.code - «end».code) / (stepOf inc % 2 ^ 32) + 1) ≤ start.code
      · have hq : (start.code - «end».code) / (stepOf inc % 2 ^ 32) ≠
            (start.code - «end».code) / stepOf inc := by
          intro hq
          exact absurd hlo (not_le.2 (hs hm hq))
        have hfuel : (start.code - «end».code) / (stepOf inc % 2 ^ 32) + 1 ≤ fuel := by
          have := Nat.div_le_self (start.code - «end».code) (stepOf inc % 2 ^ 32)
          omega
        obtain ⟨l, hl, hmap⟩ := hn.elements hm fuel start.char hle hhi
          (by
            change ((start.code : Int) - «end».code).toNat / _ + 1 ≤ fuel
            rw [hspan']
            exact hfuel)
          (by
            change 0 ≤ (start.code : Int) -
              (_ * (((start.code : Int) - «end».code).toNat / _ + 1) : Nat)
            rw [hspan']
            omega)
        refine .inr ⟨_, by rw [hl]; rfl, ?_⟩
        intro hval
        have hlen := congrArg List.length hval
        change (l.map _).length = (chars start «end» inc).fields at hlen
        have hl' := congrArg List.length hmap
        rw [List.length_map, List.length_map, List.length_range] at hl'
        change l.length = ((start.code : Int) - «end».code).toNat / _ + 1 at hl'
        rw [List.length_map, fields_chars, hl', hspan',
          show ((«end».code : Int) - start.code).natAbs = start.code - «end».code by omega] at hlen
        omega
      · obtain ⟨err, herr, hne⟩ := hn.fails hm fuel start.char hle hhi
          (by
            change (start.code : Int) -
              (_ * (((start.code : Int) - «end».code).toNat / _ + 1) : Nat) < 0
            rw [hspan']
            omega)
        exact .inl ⟨err, by rw [herr]; rfl, hne⟩
    · refine .inl ⟨.outOfFuel, ?_, nofun⟩
      rw [show stepOf inc % 2 ^ 32 = 0 by omega,
        chars_diverge «end» fuel (char_le_iff.2 hlt.le)]
      rfl

end Sequence

/-! ## Collecting a piece -/

namespace Made

/-- What an expansion may make: the values of a sequence, and no more than the cap of strings. -/
def Right : Made → Prop
  | sequence s elements => elements = s.values
  | held strings => strings ≤ maxBraceExpansionFields

end Made

/-- The errors other than `TooMuchData`. -/
def Stop.Fatal (e : Stop) : Prop := e ≠ .tooMuchData

/-- `Logged.Answers`, for what an expansion makes. -/
abbrev Answers {α : Type} (x : Logged Stop Made α) (safe : Prop) (r : Except Stop α) : Prop :=
  Logged.Answers Made.Right Stop.Fatal x safe r

namespace Lazy

def values : Lazy → List (List Char)
  | sequence s => s.values
  | ready strings => strings

def Sound : Lazy → Prop
  | sequence s => s.Sound
  | ready _ => True

theorem min_count (l : Lazy) (acc : Nat) :
    min (acc + l.count) usizeMax = min (acc + l.values.length) usizeMax := by
  cases l with
  | sequence s =>
    have hcount : count (.sequence s) = min s.fields usizeMax := by
      cases s with
      | numbers start «end» inc => rw [Sequence.fields_numbers]; rfl
      | chars start «end» inc => rw [Sequence.fields_chars]; rfl
    change _ = min (acc + s.fields) usizeMax
    omega
  | ready strings => rfl

end Lazy

theorem countAll_eq (ls : List Lazy) :
    countAll ls = min (ls.flatMap Lazy.values).length usizeMax := by
  have hfold : ∀ (ls : List Lazy) (acc : Nat), acc ≤ usizeMax →
      ls.foldl (fun acc l => min (acc + l.count) usizeMax) acc =
        min (acc + (ls.flatMap Lazy.values).length) usizeMax := by
    intro ls
    induction ls with
    | nil => exact fun acc h => (Nat.min_eq_left h).symm
    | cons l ls ih =>
      intro acc _
      rw [List.foldl_cons, l.min_count, ih _ (Nat.min_le_right _ _), List.flatMap_cons,
        List.length_append]
      omega
  rw [countAll, hfold ls 0 (Nat.zero_le _), Nat.zero_add]

theorem answers_sequence (hf : maxBraceExpansionFields ≤ fuel)
    (hs : s.fields ≤ maxBraceExpansionFields) :
    Answers (collectSequence fuel s) s.Sound (.ok s.values) := by
  have h128 : 128 ≤ fuel := le_trans (by decide) hf
  have hrun : ∀ r, s.elements fuel = r → collectSequence fuel s =
      match r with
      | .error e => (.error e, [])
      | .ok l => (.ok l, [Made.sequence s l]) := by
    rintro r rfl
    unfold collectSequence
    cases s.elements fuel <;> rfl
  refine ⟨fun h => ?_, fun h k hk => ?_, fun h => ?_⟩
  · rw [hrun _ (Sequence.elements_of_sound h (hs.trans hf))]
    rfl
  · rw [hrun _ (Sequence.elements_of_sound h (hs.trans hf))] at hk
    rw [List.mem_singleton.1 hk]
    rfl
  · rcases Sequence.elements_of_not_sound h h128 with ⟨err, herr, hne⟩ | ⟨l, hl, hne⟩
    · rw [hrun _ herr]
      exact .inr ⟨err, rfl, hne⟩
    · rw [hrun _ hl]
      exact .inl ⟨_, List.mem_singleton_self _, hne⟩

theorem answers_collect (hf : maxBraceExpansionFields ≤ fuel) (ls : List Lazy)
    (hls : ∀ l ∈ ls, l.values.length ≤ maxBraceExpansionFields) :
    Answers (collect fuel ls) (∀ l ∈ ls, l.Sound) (.ok (ls.flatMap Lazy.values)) := by
  induction ls with
  | nil => exact (Logged.answers_pure _).congr (by simp) fun _ => rfl
  | cons l ls ih =>
    have hrest := ih fun l' hl' => hls l' (List.mem_cons_of_mem _ hl')
    cases l with
    | ready strings =>
      unfold collect
      exact (hrest.map (strings ++ ·)).congr (by simp [Lazy.Sound]) fun _ => rfl
    | sequence s =>
      have hseq := answers_sequence hf (hls _ List.mem_cons_self)
      unfold collect
      exact (hseq.bind fun _ => hrest.map (s.values ++ ·)).congr (by simp [Lazy.Sound])
        fun _ => rfl

/-! ## Expressions -/

mutual

/-- The strings that pieces stand for: the product of the pieces, from left to right. -/
def productOf : List BraceExpressionOrText → List (List Char)
  | [] => [[]]
  | piece :: pieces => (fieldsOf piece).flatMap fun s => (productOf pieces).map (s ++ ·)

def fieldsOf : BraceExpressionOrText → List (List Char)
  | .expr members => membersOf members
  | .text s => [s]

def membersOf : List BraceExpressionMember → List (List Char)
  | [] => []
  | member :: members => memberOf member ++ membersOf members

def memberOf : BraceExpressionMember → List (List Char)
  | .numberSequence start «end» increment => (Sequence.numbers start «end» increment).values
  | .charSequence start «end» increment => (Sequence.chars start «end» increment).values
  | .child elements => productOf elements

end

mutual

/-- The pieces are not too large, after pieces with `total` strings in all: neither one of them,
nor what is inside, nor the product at any point. -/
def piecesFit : Nat → List BraceExpressionOrText → Prop
  | _, [] => True
  | total, piece :: pieces =>
    pieceFits piece ∧ (fieldsOf piece).length ≤ maxBraceExpansionFields ∧
      total * (fieldsOf piece).length ≤ maxBraceExpansionFields ∧
      piecesFit (total * (fieldsOf piece).length) pieces

def pieceFits : BraceExpressionOrText → Prop
  | .expr members => membersFit members
  | .text _ => True

def membersFit : List BraceExpressionMember → Prop
  | [] => True
  | member :: members => memberFits member ∧ membersFit members

def memberFits : BraceExpressionMember → Prop
  | .child elements => piecesFit 1 elements
  | _ => True

end

def lazyOf : BraceExpressionMember → Lazy
  | .numberSequence start «end» increment => .sequence (.numbers start «end» increment)
  | .charSequence start «end» increment => .sequence (.chars start «end» increment)
  | .child elements => .ready (productOf elements)

def lazies : BraceExpressionOrText → List Lazy
  | .expr members => members.map lazyOf
  | .text s => [.ready [s]]

mutual

/-- Nothing unsound is collected of the pieces, up to the point where they turn out too large. -/
def piecesSafe : Nat → List BraceExpressionOrText → Prop
  | _, [] => True
  | total, piece :: pieces =>
    pieceSafe piece ∧ (pieceFits piece → (fieldsOf piece).length ≤ maxBraceExpansionFields →
      total * (fieldsOf piece).length ≤ maxBraceExpansionFields →
      (∀ l ∈ lazies piece, l.Sound) ∧ piecesSafe (total * (fieldsOf piece).length) pieces)

def pieceSafe : BraceExpressionOrText → Prop
  | .expr members => membersSafe 0 members
  | .text _ => True

/-- Nothing unsound is collected of what is inside the members, and their children together do not
hold more strings than the cap, `held` of which are held already. -/
def membersSafe : Nat → List BraceExpressionMember → Prop
  | _, [] => True
  | held, member :: members =>
    memberSafe member ∧ (memberFits member →
      held + (lazyOf member).held ≤ maxBraceExpansionFields ∧
      membersSafe (held + (lazyOf member).held) members)

def memberSafe : BraceExpressionMember → Prop
  | .child elements => piecesSafe 1 elements
  | _ => True

end

theorem memberOf_eq (m : BraceExpressionMember) : memberOf m = (lazyOf m).values := by
  cases m <;> simp only [memberOf, lazyOf, Lazy.values]

theorem membersOf_eq (ms : List BraceExpressionMember) :
    membersOf ms = (ms.map lazyOf).flatMap Lazy.values := by
  induction ms with
  | nil => simp [membersOf]
  | cons m ms ih => rw [membersOf, ih, memberOf_eq, List.map_cons, List.flatMap_cons]

theorem fieldsOf_eq (p : BraceExpressionOrText) : fieldsOf p = (lazies p).flatMap Lazy.values := by
  cases p with
  | expr ms => rw [fieldsOf, membersOf_eq]; rfl
  | text s => rw [fieldsOf]; rfl

theorem combine_map (ps : List BraceExpressionOrText) :
    combine (ps.map fieldsOf) = productOf ps := by
  unfold combine
  induction ps with
  | nil => rw [productOf]; rfl
  | cons p ps ih =>
    rw [productOf, ← ih, List.map_cons, multiCartesianProduct, List.map_flatMap]
    congr 1
    funext s
    rw [List.map_map, List.map_map]
    rfl

/-- An answer, or `TooMuchData`. -/
noncomputable def orTooMuch {α : Type} (fits : Prop) (a : α) : Except Stop α :=
  open Classical in if fits then .ok a else .error .tooMuchData

theorem orTooMuch_of {α : Type} {fits : Prop} (h : fits) (a : α) : orTooMuch fits a = .ok a :=
  if_pos h

theorem orTooMuch_of_not {α : Type} {fits : Prop} (h : ¬fits) (a : α) :
    orTooMuch fits a = .error .tooMuchData :=
  if_neg h

theorem length_le_of_mem {ls : List Lazy} {l : Lazy} (h : l ∈ ls) :
    l.values.length ≤ (ls.flatMap Lazy.values).length :=
  (List.sublist_flatten_of_mem (List.mem_map_of_mem h)).length_le

mutual

theorem answers_pieces (hf : maxBraceExpansionFields ≤ fuel) :
    ∀ (total : Nat) (ps : List BraceExpressionOrText),
      Answers (expandPieces fuel total ps) (piecesSafe total ps)
        (orTooMuch (piecesFit total ps) (ps.map fieldsOf))
  | total, [] => by
    unfold expandPieces piecesSafe piecesFit
    rw [orTooMuch_of trivial]
    exact Logged.answers_pure _
  | total, p :: ps => by
    have hpiece := answers_piece hf p
    have hmax : maxBraceExpansionFields ≤ usizeMax := by decide
    unfold expandPieces piecesSafe piecesFit
    by_cases hfit : pieceFits p
    · rw [orTooMuch_of hfit] at hpiece
      refine (hpiece.bind fun _ => ?_).congr Iff.rfl fun _ => rfl
      dsimp only
      rw [countAll_eq, ← fieldsOf_eq]
      by_cases hlen : (fieldsOf p).length ≤ maxBraceExpansionFields
      · rw [Nat.min_eq_left (hlen.trans hmax), if_neg (not_lt.2 hlen)]
        by_cases htotal : total * (fieldsOf p).length ≤ maxBraceExpansionFields
        · rw [Nat.min_eq_left (htotal.trans hmax), if_neg (not_lt.2 htotal)]
          have hcollect := answers_collect hf (lazies p) fun l hl =>
            (length_le_of_mem hl).trans (by rwa [← fieldsOf_eq])
          rw [← fieldsOf_eq] at hcollect
          have hheld : Answers (Logged.tell (Made.held (fieldsOf p).length)) True (.ok ()) :=
            (Logged.answers_tell _).congr (iff_true_intro hlen) fun _ => rfl
          have hrest := answers_pieces hf (total * (fieldsOf p).length) ps
          by_cases hrestfit : piecesFit (total * (fieldsOf p).length) ps
          · rw [orTooMuch_of hrestfit] at hrest
            rw [orTooMuch_of ⟨hfit, hlen, htotal, hrestfit⟩]
            exact (hcollect.bind fun _ => hheld.bind fun _ =>
              hrest.map (fieldsOf p :: ·)).congr (by simp [hfit, hlen, htotal]) fun _ => rfl
          · rw [orTooMuch_of_not hrestfit] at hrest
            rw [orTooMuch_of_not fun h => hrestfit h.2.2.2]
            exact (hcollect.bind fun _ => hheld.bind fun _ =>
              hrest.bind_error _).congr (by simp [hfit, hlen, htotal]) fun _ => rfl
        · rw [if_pos (lt_min (not_le.1 htotal) (by decide)), orTooMuch_of_not fun h => htotal h.2.2.1]
          exact (Logged.answers_throw _).congr (by simp [htotal]) fun _ => rfl
      · rw [if_pos (lt_min (not_le.1 hlen) (by decide)), orTooMuch_of_not fun h => hlen h.2.1]
        exact (Logged.answers_throw _).congr (by simp [hlen]) fun _ => rfl
    · rw [orTooMuch_of_not hfit] at hpiece
      rw [orTooMuch_of_not fun h => hfit h.1]
      exact (hpiece.bind_error _).congr (by simp [hfit]) fun _ => rfl

theorem answers_piece (hf : maxBraceExpansionFields ≤ fuel) :
    ∀ p : BraceExpressionOrText, Answers (expandBraceExprOrText fuel p) (pieceSafe p)
      (orTooMuch (pieceFits p) (lazies p))
  | .expr ms => by
    unfold expandBraceExprOrText pieceSafe pieceFits lazies
    exact answers_members hf 0 ms
  | .text s => by
    unfold expandBraceExprOrText pieceSafe pieceFits lazies
    rw [orTooMuch_of trivial]
    exact Logged.answers_pure _

theorem answers_members (hf : maxBraceExpansionFields ≤ fuel) :
    ∀ (held : Nat) (ms : List BraceExpressionMember),
      Answers (expandMembers fuel held ms) (membersSafe held ms)
        (orTooMuch (membersFit ms) (ms.map lazyOf))
  | held, [] => by
    unfold expandMembers membersSafe membersFit
    rw [orTooMuch_of trivial]
    exact Logged.answers_pure _
  | held, m :: ms => by
    have hmember := answers_member hf m
    unfold expandMembers membersSafe membersFit
    by_cases hfit : memberFits m
    · rw [orTooMuch_of hfit] at hmember
      have hheld : Answers (Logged.tell (Made.held (held + (lazyOf m).held)))
          (held + (lazyOf m).held ≤ maxBraceExpansionFields) (.ok ()) := Logged.answers_tell _
      have hrest := answers_members hf (held + (lazyOf m).held) ms
      by_cases hrestfit : membersFit ms
      · rw [orTooMuch_of hrestfit] at hrest
        rw [orTooMuch_of ⟨hfit, hrestfit⟩]
        exact (hmember.bind fun _ => hheld.bind fun _ =>
          hrest.map (lazyOf m :: ·)).congr (by simp [hfit]) fun _ => rfl
      · rw [orTooMuch_of_not hrestfit] at hrest
        rw [orTooMuch_of_not fun h => hrestfit h.2]
        exact (hmember.bind fun _ => hheld.bind fun _ =>
          hrest.bind_error _).congr (by simp [hfit]) fun _ => rfl
    · rw [orTooMuch_of_not hfit] at hmember
      rw [orTooMuch_of_not fun h => hfit h.1]
      exact (hmember.bind_error _).congr (by simp [hfit]) fun _ => rfl

theorem answers_member (hf : maxBraceExpansionFields ≤ fuel) :
    ∀ m : BraceExpressionMember, Answers (expandBraceExprMember fuel m) (memberSafe m)
      (orTooMuch (memberFits m) (lazyOf m))
  | .numberSequence start «end» increment => by
    unfold expandBraceExprMember memberSafe memberFits lazyOf
    rw [orTooMuch_of trivial]
    exact Logged.answers_pure _
  | .charSequence start «end» increment => by
    unfold expandBraceExprMember memberSafe memberFits lazyOf
    rw [orTooMuch_of trivial]
    exact Logged.answers_pure _
  | .child elements => by
    have helements := answers_pieces hf 1 elements
    unfold expandBraceExprMember memberSafe memberFits lazyOf
    dsimp only
    by_cases hfit : piecesFit 1 elements
    · rw [orTooMuch_of hfit] at helements ⊢
      rw [← combine_map]
      exact helements.map fun expansions => Lazy.ready (combine expansions)
    · rw [orTooMuch_of_not hfit] at helements ⊢
      exact helements.bind_error _

end

/-! ## The expansion -/

theorem answers_generate (hf : maxBraceExpansionFields ≤ fuel)
    (ps : List BraceExpressionOrText) :
    Answers (generateAndCombine fuel ps) (piecesSafe 1 ps)
      (orTooMuch (piecesFit 1 ps) (productOf ps)) := by
  have hpieces := answers_pieces hf 1 ps
  unfold generateAndCombine
  by_cases hfit : piecesFit 1 ps
  · rw [orTooMuch_of hfit] at hpieces ⊢
    rw [← combine_map]
    exact hpieces.map combine
  · rw [orTooMuch_of_not hfit] at hpieces ⊢
    exact hpieces.bind_error _

/-- What is asked of the expansion of pieces: with fuel enough it comes to an end, with their
product or with `TooMuchData`, and on the way each sequence yields its values and no piece holds
more strings than the cap. -/
def Meets (ps : List BraceExpressionOrText) : Prop :=
  ∃ n, ∀ fuel, n ≤ fuel →
    ((generateAndCombine fuel ps).result = .ok (productOf ps) ∨
      (generateAndCombine fuel ps).result = .error .tooMuchData) ∧
    ∀ k ∈ (generateAndCombine fuel ps).log, k.Right

theorem safe_of_meets {ps : List BraceExpressionOrText} (h : Meets ps) : piecesSafe 1 ps := by
  obtain ⟨n, hn⟩ := h
  have hmax : maxBraceExpansionFields ≤ max n maxBraceExpansionFields := Nat.le_max_right _ _
  obtain ⟨hres, hlog⟩ := hn _ (Nat.le_max_left n maxBraceExpansionFields)
  by_contra hsafe
  rcases (answers_generate hmax ps).spoiled hsafe with ⟨k, hk, hbad⟩ | ⟨e, he, hfatal⟩
  · exact hbad (hlog k hk)
  · rcases hres with hres | hres
    · rw [hres] at he
      cases he
    · rw [hres] at he
      cases he
      exact hfatal rfl

/-- **Brace expansion.** The expansion of an expression does what is asked of it exactly if no
unsound sequence is collected, and no piece makes too many children before it is refused. -/
theorem meets_iff (ps : List BraceExpressionOrText) : Meets ps ↔ piecesSafe 1 ps := by
  refine ⟨safe_of_meets, fun hsafe => ⟨maxBraceExpansionFields, fun fuel hf => ⟨?_, ?_⟩⟩⟩
  · rw [(answers_generate hf ps).result_eq hsafe]
    by_cases hfit : piecesFit 1 ps
    · exact .inl (orTooMuch_of hfit _)
    · exact .inr (orTooMuch_of_not hfit _)
  · exact (answers_generate hf ps).log_ok hsafe

/-- `{z..a..4294967296}`: the step loses all its bits, and the iterator stays at `z`. -/
theorem not_meets_truncated :
    ¬Meets [.expr [.charSequence ⟨'z', by decide⟩ ⟨'a', by decide⟩ 4294967296]] := by
  intro h
  have hsafe := safe_of_meets h
  have hone : (fieldsOf (.expr [.charSequence ⟨'z', by decide⟩ ⟨'a', by decide⟩
      4294967296])).length = 1 := by
    rw [fieldsOf, membersOf, membersOf, memberOf, List.append_nil]
    exact (Sequence.fields_chars _ _ _).trans (by decide)
  unfold piecesSafe at hsafe
  rw [hone] at hsafe
  have hfit : pieceFits (.expr [.charSequence ⟨'z', by decide⟩ ⟨'a', by decide⟩
      4294967296]) := by
    simp [pieceFits, membersFit, memberFits]
  have hsound := (hsafe.2 hfit (by decide) (by decide)).1 _ List.mem_cons_self
  exact absurd (hsound (by decide)).1 (by decide)

end Seahaven.Shell.Braces
