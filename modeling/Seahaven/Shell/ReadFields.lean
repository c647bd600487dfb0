import Seahaven.Lib.Delimited

/-!
# The fields `read` divides a line into

`split_line_by_ifs` goes over a line once, with a flag for a run of whitespace it is in, one for a
delimiter that was no whitespace, and one for a remainder it collects. The shell's rule makes one
delimiter of a run of whitespace with at most one other character of `IFS` in it.

1. `codeFields`: what the loop makes of a line, by its fields (`foldl_stepChar`).
2. `Regular`: the lines whose delimiters the loop finds. `codeFields_ne` is where it falls behind.
3. `splitLineByIfs_eq_iff`: the loop divides by the rule exactly there.
-/

namespace Seahaven.ReadLine

open Delimited

/-! ## The loop -/

/-- Whether a character is whitespace of `IFS`. -/
def isIfsWhitespace (ifs : List Char) (c : Char) : Bool :=
  (c = ' ' || c = '\t' || c = '\n') && ifs.contains c

/-- The state of the loop. -/
structure LineSplitting where
  fields : List (List Char)
  currentField : List Char
  /-- Currently skipping consecutive whitespace of `IFS`. -/
  consumingWhitespaceRun : Bool
  /-- The previous character was a delimiter and no whitespace. -/
  prevWasNonWsDelim : Bool
  /-- Everything goes into the last field. -/
  collectingRemainder : Bool

def atFieldLimit (maxFields : Option ℕ) (fields : List (List Char)) : Bool :=
  match maxFields with
  | none => false
  | some n => n ≤ fields.length + 1

/-- One character. -/
def stepChar (ifs : List Char) (maxFields : Option ℕ) (st : LineSplitting) (c : Char) :
    LineSplitting :=
  if st.consumingWhitespaceRun && isIfsWhitespace ifs c then st
  else
    let isDelimiter := ifs.contains c
    let atLimit := atFieldLimit maxFields st.fields
    if !atLimit && isDelimiter then
      { st with
        fields := st.fields ++ [st.currentField]
        currentField := []
        consumingWhitespaceRun := isIfsWhitespace ifs c
        prevWasNonWsDelim := !isIfsWhitespace ifs c }
    else if atLimit && !st.collectingRemainder && isDelimiter then
      if isIfsWhitespace ifs c then { st with consumingWhitespaceRun := true }
      else
        { st with
          consumingWhitespaceRun := false
          collectingRemainder := true
          currentField := st.currentField ++ [c] }
    else
      { st with
        consumingWhitespaceRun := false
        collectingRemainder := atLimit
        currentField := st.currentField ++ [c]
        prevWasNonWsDelim := false }

def LineSplitting.finish (st : LineSplitting) : List (List Char) :=
  if st.currentField ≠ [] || !st.prevWasNonWsDelim then st.fields ++ [st.currentField]
  else st.fields

/-- Splits a line by `IFS`, into at most `maxFields` fields. -/
def splitLineByIfs (ifs line : List Char) (maxFields : Option ℕ) : List (List Char) :=
  let trimmed := (line.dropWhile (isIfsWhitespace ifs)).rdropWhile (isIfsWhitespace ifs)
  if trimmed = [] then []
  else (trimmed.foldl (stepChar ifs maxFields) ⟨[], [], false, false, false⟩).finish

/-- The values of `k` variables: one field each, and for the last all that are left. -/
def namedValues (fields : List (List Char)) : ℕ → List (List Char)
  | 0 => []
  | 1 => [List.intercalate [' '] fields]
  | k + 2 =>
    match fields with
    | [] => [] :: namedValues [] (k + 1)
    | field :: rest => field :: namedValues rest (k + 1)

/-! ## The loop by its fields -/

/-- Blanks and marks of `IFS`. -/
def ifsDelimiters (ifs : List Char) : Delimiters Char where
  blank := isIfsWhitespace ifs
  mark c := ifs.contains c && !isIfsWhitespace ifs c
  apart c h := by simp [h]

section Code

variable {α : Type*} (D : Delimiters α)

def fieldStart (skipping : Bool) (s : List α) : List α := if skipping then D.skip s else s

theorem fieldStart_le (skipping : Bool) (s : List α) :
    (fieldStart D skipping s).length ≤ s.length := by
  unfold fieldStart
  split_ifs
  · exact D.skip_le s
  · exact Nat.le_refl _

/-- What the loop makes of a line from a field on: `skipping` whitespace first, `ended` by a mark
before it, with `left` fields to divide off before the last. -/
def codeFields (left : Option ℕ) (skipping ended : Bool) (s : List α) : List (List α) :=
  if left = some 0 then
    if D.skip s = [] ∧ ended = true then [] else [D.skip s]
  else
    match h : D.behind (fieldStart D skipping s) with
    | [] =>
      if D.first (fieldStart D skipping s) = [] ∧ ended = true then []
      else [D.first (fieldStart D skipping s)]
    | d :: rest =>
      D.first (fieldStart D skipping s) ::
        codeFields (left.map (· - 1)) (D.blank d) (!D.blank d) rest
  termination_by s.length
  decreasing_by
    have h₁ := D.behind_le (fieldStart D skipping s)
    have h₂ := fieldStart_le D skipping s
    rw [h, List.length_cons] at h₁
    omega

variable {D} {s : List α} {left : Option ℕ} {skipping ended : Bool}

theorem codeFields_zero : codeFields D (some 0) skipping ended s =
    if D.skip s = [] ∧ ended = true then [] else [D.skip s] := by
  rw [codeFields, if_pos rfl]

theorem codeFields_only (hleft : left ≠ some 0) (h : D.behind (fieldStart D skipping s) = []) :
    codeFields D left skipping ended s =
      if D.first (fieldStart D skipping s) = [] ∧ ended = true then []
      else [D.first (fieldStart D skipping s)] := by
  rw [codeFields, if_neg hleft]
  split
  · rfl
  · rename_i d rest hd
    rw [h] at hd
    cases hd

theorem codeFields_cons (hleft : left ≠ some 0) {d : α} {rest : List α}
    (h : D.behind (fieldStart D skipping s) = d :: rest) : codeFields D left skipping ended s =
      D.first (fieldStart D skipping s) ::
        codeFields D (left.map (· - 1)) (D.blank d) (!D.blank d) rest := by
  rw [codeFields, if_neg hleft]
  split
  · rename_i hnil
    rw [h] at hnil
    cases hnil
  · rename_i d' rest' hd
    rw [h] at hd
    obtain ⟨rfl, rfl⟩ := List.cons.inj hd
    rfl

theorem codeFields_skip : codeFields D left true ended s =
    codeFields D left skipping ended (D.skip s) := by
  have hstart : fieldStart D true s = D.skip s := rfl
  have hskip : fieldStart D skipping (D.skip s) = D.skip s := by
    unfold fieldStart
    rw [D.skip_skip, ite_self]
  by_cases hleft : left = some 0
  · subst hleft
    rw [codeFields_zero, codeFields_zero, D.skip_skip]
  · cases h : D.behind (D.skip s) with
    | nil =>
      rw [codeFields_only hleft (hstart ▸ h), codeFields_only hleft (hskip.symm ▸ h), hstart, hskip]
    | cons d rest =>
      rw [codeFields_cons hleft (hstart ▸ h), codeFields_cons hleft (hskip.symm ▸ h), hstart, hskip]

end Code

section Loop

variable {ifs : List Char} {maxFields : Option ℕ} {st : LineSplitting} {c : Char}

theorem divides_iff_mem : (ifsDelimiters ifs).divides c = true ↔ c ∈ ifs := by
  have hblank : isIfsWhitespace ifs c = true → c ∈ ifs := fun h => by
    rw [isIfsWhitespace, Bool.and_eq_true] at h
    simpa using h.2
  rw [Delimiters.divides_iff]
  show isIfsWhitespace ifs c = true ∨ (ifs.contains c && !isIfsWhitespace ifs c) = true ↔ _
  cases h : isIfsWhitespace ifs c with
  | true => simpa using hblank h
  | false => simp

theorem contains_eq : ifs.contains c = (ifsDelimiters ifs).divides c := by
  rw [Bool.eq_iff_iff, divides_iff_mem, List.contains_iff_mem]

theorem blank_of_not_divides (h : (ifsDelimiters ifs).divides c = false) :
    isIfsWhitespace ifs c = false := (Bool.or_eq_false_iff.1 h).1

theorem stepChar_add (hskip : (st.consumingWhitespaceRun && isIfsWhitespace ifs c) = false)
    (h : (ifsDelimiters ifs).divides c = false ∨
      atFieldLimit maxFields st.fields = true ∧ st.collectingRemainder = true) :
    stepChar ifs maxFields st c =
      { st with
        consumingWhitespaceRun := false
        collectingRemainder := atFieldLimit maxFields st.fields
        currentField := st.currentField ++ [c]
        prevWasNonWsDelim := false } := by
  unfold stepChar
  rw [hskip, contains_eq]
  rcases h with h | ⟨hlimit, hcollecting⟩
  · simp [h]
  · simp [hlimit, hcollecting]

theorem foldl_plain {s : List Char} (hs : ∀ c ∈ s, (ifsDelimiters ifs).divides c = false)
    (st : LineSplitting) (hne : s ≠ []) :
    s.foldl (stepChar ifs maxFields) st =
      { st with
        consumingWhitespaceRun := false
        collectingRemainder := atFieldLimit maxFields st.fields
        currentField := st.currentField ++ s
        prevWasNonWsDelim := false } := by
  induction s generalizing st with
  | nil => exact absurd rfl hne
  | cons c s ih =>
    rw [List.forall_mem_cons] at hs
    rw [List.foldl_cons, stepChar_add (by rw [blank_of_not_divides hs.1, Bool.and_false])
      (.inl hs.1)]
    cases s with
    | nil => rfl
    | cons c' s =>
      rw [ih hs.2 _ (List.cons_ne_nil _ _)]
      simp

theorem foldl_collecting (s : List Char) (hlimit : atFieldLimit maxFields st.fields = true)
    (hcollecting : st.collectingRemainder = true) (hconsuming : st.consumingWhitespaceRun = false) :
    ∃ ended, s.foldl (stepChar ifs maxFields) st =
      { st with currentField := st.currentField ++ s, prevWasNonWsDelim := ended } := by
  induction s generalizing st with
  | nil => exact ⟨st.prevWasNonWsDelim, by simp⟩
  | cons c s ih =>
    rw [List.foldl_cons, stepChar_add (by rw [hconsuming, Bool.false_and])
      (.inr ⟨hlimit, hcollecting⟩)]
    obtain ⟨ended, h⟩ := @ih { st with
        consumingWhitespaceRun := false
        collectingRemainder := atFieldLimit maxFields st.fields
        currentField := st.currentField ++ [c]
        prevWasNonWsDelim := false } hlimit hlimit rfl
    refine ⟨ended, h.trans ?_⟩
    simp [hlimit, hcollecting, hconsuming]

theorem foldl_blanks {blanks : List Char} (hb : ∀ c ∈ blanks, isIfsWhitespace ifs c = true)
    (h : st.consumingWhitespaceRun = true) : blanks.foldl (stepChar ifs maxFields) st = st := by
  induction blanks with
  | nil => rfl
  | cons c blanks ih =>
    rw [List.forall_mem_cons] at hb
    have hstep : stepChar ifs maxFields st c = st := by
      unfold stepChar
      rw [h, hb.1]
      rfl
    rw [List.foldl_cons, hstep, ih hb.2]

theorem foldl_blanks_limit {blanks : List Char} (hb : ∀ c ∈ blanks, isIfsWhitespace ifs c = true)
    (hlimit : atFieldLimit maxFields st.fields = true) (hnone : st.collectingRemainder = false) :
    ∃ skipping, blanks.foldl (stepChar ifs maxFields) st =
      { st with consumingWhitespaceRun := skipping } := by
  induction blanks generalizing st with
  | nil => exact ⟨_, rfl⟩
  | cons c blanks ih =>
    rw [List.forall_mem_cons] at hb
    rw [List.foldl_cons]
    have hmem : c ∈ ifs := divides_iff_mem.1 (Delimiters.divides_iff.2 (.inl hb.1))
    have hstep : stepChar ifs maxFields st c = { st with consumingWhitespaceRun := true } := by
      unfold stepChar
      cases h : st.consumingWhitespaceRun with
      | true => simp [hb.1, ← h]
      | false => simp [hb.1, hmem, hlimit, hnone]
    rw [hstep, foldl_blanks hb.2 rfl]
    exact ⟨true, rfl⟩

def leftFields (maxFields : Option ℕ) (fields : List (List Char)) : Option ℕ :=
  maxFields.map fun n => n - 1 - fields.length

theorem atFieldLimit_iff {fields : List (List Char)} :
    atFieldLimit maxFields fields = true ↔ leftFields maxFields fields = some 0 := by
  cases maxFields with
  | none => simp [atFieldLimit, leftFields]
  | some n =>
    simp only [atFieldLimit, leftFields, Option.map_some, decide_eq_true_eq, Option.some.injEq]
    omega

theorem leftFields_concat (fields : List (List Char)) (field : List Char) :
    leftFields maxFields (fields ++ [field]) = (leftFields maxFields fields).map (· - 1) := by
  cases maxFields with
  | none => rfl
  | some n =>
    simp only [leftFields, Option.map_some, List.length_append, List.length_singleton]
    rw [Nat.sub_add_eq]

theorem finish_foldl_limit (s : List Char) {fields : List (List Char)} (skipping ended : Bool)
    (hlimit : atFieldLimit maxFields fields = true) :
    (s.foldl (stepChar ifs maxFields) ⟨fields, [], skipping, ended, false⟩).finish =
      fields ++ codeFields (ifsDelimiters ifs) (some 0) skipping ended s := by
  obtain ⟨blanks, hs, hb⟩ := Delimiters.exists_blanks (D := ifsDelimiters ifs) s
  obtain ⟨skipping', hblanks⟩ := @foldl_blanks_limit _ maxFields
    ⟨fields, [], skipping, ended, false⟩ _ hb hlimit rfl
  have hhead := Delimiters.head_skip (D := ifsDelimiters ifs) s
  have hfold : s.foldl (stepChar ifs maxFields) ⟨fields, [], skipping, ended, false⟩ =
      ((ifsDelimiters ifs).skip s).foldl (stepChar ifs maxFields)
        ⟨fields, [], skipping', ended, false⟩ := by
    conv_lhs => rw [hs, List.foldl_append, hblanks]
  rw [hfold, codeFields_zero]
  cases hskip : (ifsDelimiters ifs).skip s with
  | nil => cases ended <;> simp [LineSplitting.finish]
  | cons c rest =>
    rw [hskip] at hhead
    have hc : isIfsWhitespace ifs c = false := hhead c rfl
    have hstep : ∃ ended', stepChar ifs maxFields ⟨fields, [], skipping', ended, false⟩ c =
        ⟨fields, [c], false, ended', true⟩ := by
      unfold stepChar
      by_cases hmem : c ∈ ifs <;> simp [hc, hmem, hlimit]
    obtain ⟨ended', hstep⟩ := hstep
    obtain ⟨ended'', hrest⟩ := @foldl_collecting ifs maxFields
      ⟨fields, [c], false, ended', true⟩ rest hlimit rfl rfl
    rw [List.foldl_cons, hstep, hrest]
    simp [LineSplitting.finish]

/-- **The loop.** From the start of a field on it adds the fields of what is left. -/
theorem finish_foldl (s : List Char) (fields : List (List Char)) (skipping ended : Bool) :
    (s.foldl (stepChar ifs maxFields) ⟨fields, [], skipping, ended, false⟩).finish =
      fields ++ codeFields (ifsDelimiters ifs) (leftFields maxFields fields) skipping ended s := by
  induction hn : s.length using Nat.strong_induction_on generalizing s fields skipping ended with
  | _ n ih =>
    cases hlimit : atFieldLimit maxFields fields with
    | true =>
      rw [atFieldLimit_iff.1 hlimit]
      exact finish_foldl_limit s skipping ended hlimit
    | false =>
      have hleft : leftFields maxFields fields ≠ some 0 := fun h => by
        rw [atFieldLimit_iff.2 h] at hlimit
        cases hlimit
      set D := ifsDelimiters ifs with hD
      -- the whitespace before the field
      obtain ⟨skipping', hfold, hhead⟩ : ∃ skipping', s.foldl (stepChar ifs maxFields)
          ⟨fields, [], skipping, ended, false⟩ = (fieldStart D skipping s).foldl
            (stepChar ifs maxFields) ⟨fields, [], skipping', ended, false⟩ ∧
          (skipping' = true → ∀ c ∈ (fieldStart D skipping s).head?, D.blank c = false) := by
        cases skipping with
        | false => exact ⟨false, rfl, nofun⟩
        | true =>
          obtain ⟨blanks, hs, hb⟩ := Delimiters.exists_blanks (D := D) s
          refine ⟨true, ?_, fun _ => Delimiters.head_skip s⟩
          conv_lhs => rw [hs, List.foldl_append, foldl_blanks hb rfl]
          rfl
      have hle := fieldStart_le D skipping s
      rw [hfold]
      generalize hstart : fieldStart D skipping s = s' at hhead hle ⊢
      have hsplit := Delimiters.first_append_behind (D := D) s'
      have hplain : ∀ c ∈ D.first s', D.divides c = false := fun c hc => by
        simpa using List.mem_takeWhile_imp hc
      -- the field
      obtain ⟨skipping₁, ended₁, hfirst, hended, hskipping⟩ : ∃ skipping₁ ended₁,
          (D.first s').foldl (stepChar ifs maxFields) ⟨fields, [], skipping', ended, false⟩ =
            ⟨fields, D.first s', skipping₁, ended₁, false⟩ ∧
          (D.first s' = [] → ended₁ = ended) ∧
          (skipping₁ = true → ∀ c ∈ (D.behind s').head?, D.blank c = false) := by
        by_cases hnil : D.first s' = []
        · rw [hnil, List.nil_append] at hsplit
          rw [hnil, hsplit]
          exact ⟨skipping', ended, rfl, fun _ => rfl, hhead⟩
        · refine ⟨false, false, ?_, fun h => absurd h hnil, nofun⟩
          rw [foldl_plain hplain _ hnil]
          simp [hlimit]
      rw [← hsplit, List.foldl_append, hfirst]
      cases hbehind : D.behind s' with
      | nil =>
        rw [codeFields_only hleft (hstart ▸ hbehind), hstart]
        by_cases hnil : D.first s' = []
        · rw [hended hnil, hnil]
          cases ended <;> simp [LineSplitting.finish]
        · simp [LineSplitting.finish, hnil]
      | cons d rest =>
        have hd : d ∈ ifs := divides_iff_mem.1 (Delimiters.divides_of_behind hbehind)
        have hstep : stepChar ifs maxFields ⟨fields, D.first s', skipping₁, ended₁, false⟩ d =
            ⟨fields ++ [D.first s'], [], D.blank d, !D.blank d, false⟩ := by
          have hskip : (skipping₁ && isIfsWhitespace ifs d) = false := by
            cases skipping₁ with
            | false => rfl
            | true => exact hskipping rfl d (by rw [hbehind]; rfl)
          unfold stepChar
          rw [hskip]
          simp only [List.contains_iff_mem.2 hd, hlimit]
          rfl
        have hlen := D.behind_le s'
        rw [hbehind, List.length_cons] at hlen
        rw [codeFields_cons hleft (hstart ▸ hbehind), hstart, List.foldl_cons, hstep,
          ih _ (by omega) rest _ _ _ rfl, leftFields_concat, List.append_assoc,
          List.singleton_append]

end Loop

/-! ## Where the loop divides by the rule -/

section Rule

variable {α : Type*} {D : Delimiters α} {s : List α} {left : Option ℕ} {skipping ended : Bool}

/-- The lines from a field on whose delimiters are single characters or runs of blanks, save that
blanks may stand behind the last that divides anything off, and whose rest is not one field with a
delimiter that ends it. -/
def Regular (D : Delimiters α) (left : Option ℕ) (s : List α) : Prop :=
  if s = [] then True
  else if left = some 0 then ¬ D.Terminated s
  else
    match h : D.behind s with
    | [] => True
    | d :: rest =>
      (D.blank d = true → ∀ c ∈ (D.skip rest).head?, D.mark c = false) ∧
        (D.blank d = false → left = some 1 ∨ ∀ c ∈ rest.head?, D.blank c = false) ∧
          Regular D (left.map (· - 1)) (D.skip rest)
  termination_by s.length
  decreasing_by
    have h₁ := D.behind_le s
    have h₂ := D.skip_le rest
    rw [h, List.length_cons] at h₁
    omega

theorem regular_zero (hs : s ≠ []) : Regular D (some 0) s ↔ ¬ D.Terminated s := by
  rw [Regular, if_neg hs, if_pos rfl]

theorem regular_only (hleft : left ≠ some 0) (h : D.behind s = []) : Regular D left s := by
  rw [Regular]
  split_ifs
  · split
    · trivial
    · rename_i d rest hd
      rw [h] at hd
      cases hd

theorem regular_cons (hleft : left ≠ some 0) {d : α} {rest : List α} (h : D.behind s = d :: rest) :
    Regular D left s ↔ (D.blank d = true → ∀ c ∈ (D.skip rest).head?, D.mark c = false) ∧
      (D.blank d = false → left = some 1 ∨ ∀ c ∈ rest.head?, D.blank c = false) ∧
        Regular D (left.map (· - 1)) (D.skip rest) := by
  have hs : s ≠ [] := by
    rintro rfl
    cases h
  rw [Regular, if_neg hs, if_neg hleft]
  split
  · rename_i hnil
    rw [h] at hnil
    cases hnil
  · rename_i d' rest' hd
    rw [h] at hd
    obtain ⟨rfl, rfl⟩ := List.cons.inj hd
    rfl

theorem fields_zero_le : ∀ f ∈ D.fields (some 0) s, f.length ≤ s.length := by
  by_cases hs : s = []
  · rw [hs, D.fields_nil]
    nofun
  · rw [D.fields_zero hs]
    intro f hf
    rw [List.mem_singleton.1 hf]
    exact D.lastField_le s

theorem fields_eq_nil_cons (hs : ∀ c ∈ s.head?, D.blank c = false) {fs : List (List α)}
    (hleft : left ≠ some 0) (h : D.fields left s = [] :: fs) : ∃ d rest, s = d :: rest ∧
      D.mark d = true ∧ fs = D.fields (left.map (· - 1)) (D.skip rest) := by
  have hne : s ≠ [] := by
    rintro rfl
    rw [D.fields_nil] at h
    cases h
  cases hbehind : D.behind s with
  | nil =>
    rw [D.fields_only hleft hne hbehind] at h
    exact absurd (List.cons.inj h).1 hne
  | cons d rest =>
    rw [D.fields_cons hleft hbehind] at h
    obtain ⟨hfirst, hfs⟩ := List.cons.inj h
    have hsplit := Delimiters.first_append_behind (D := D) s
    rw [hfirst, hbehind, List.nil_append] at hsplit
    have hblank : D.blank d = false := hs d (by rw [← hsplit]; rfl)
    refine ⟨d, rest, hsplit.symm, ?_, ?_⟩
    · exact (Delimiters.divides_iff.1 (Delimiters.divides_of_behind hbehind)).resolve_left
        (by simp [hblank])
    · rw [← hfs, Delimiters.afterDelimiter, if_neg (by simp [hblank])]

theorem skip_append {y u : List α} {d : α} (hd : d ∈ y) (hblank : D.blank d = false) :
    ∃ c y', D.skip (y ++ u) = c :: (y' ++ u) ∧ D.blank c = false ∧ (∀ e ∈ c :: y', e ∈ y) ∧
      y'.length < y.length := by
  induction y with
  | nil => cases hd
  | cons e y ih =>
    cases he : D.blank e with
    | false =>
      refine ⟨e, y, Delimiters.skip_eq_self fun c hc => ?_, he, fun _ h => h, Nat.lt_succ_self _⟩
      rwa [← Option.some.inj hc]
    | true =>
      have hd : d ∈ y := (List.mem_cons.1 hd).resolve_left fun h => by
        rw [h, he] at hblank
        cases hblank
      obtain ⟨c, y', hskip, hc, hmem, hlen⟩ := ih hd
      refine ⟨c, y', ?_, hc, fun e h => List.mem_cons_of_mem _ (hmem e h), Nat.lt_succ_of_lt hlen⟩
      rw [← hskip]
      exact List.dropWhile_cons_of_pos he

theorem not_blank_of_mark {c : α} (h : D.mark c = true) : D.blank c = false := by
  by_contra hb
  rw [D.apart c (by simpa using hb)] at h
  cases h

theorem behind_of_divides {c : α} {s : List α} (h : D.divides c = true) :
    D.behind (c :: s) = c :: s ∧ D.first (c :: s) = [] :=
  ⟨List.dropWhile_cons_of_neg (by simp [h]), List.takeWhile_cons_of_neg (by simp [h])⟩

theorem codeFields_divides {c : α} (hleft : left ≠ some 0) (hc : D.divides c = true)
    (hskip : skipping = true → D.blank c = false) :
    codeFields D left skipping ended (c :: s) =
      [] :: codeFields D (left.map (· - 1)) (D.blank c) (!D.blank c) s := by
  have hstart : fieldStart D skipping (c :: s) = c :: s := by
    unfold fieldStart
    split_ifs with h
    · exact Delimiters.skip_eq_self fun d hd => by rw [← Option.some.inj hd]; exact hskip h
    · rfl
  obtain ⟨hbehind, hfirst⟩ := behind_of_divides (s := s) hc
  rw [codeFields_cons hleft (show _ = c :: s by rw [hstart, hbehind]), hstart, hfirst]

theorem codeFields_zero_ne {y u v : List α} {d : α} (hd : d ∈ y) (hblank : D.blank d = false)
    (hv : v.length ≤ u.length) :
    codeFields D (some 0) skipping ended (y ++ u) ≠ D.fields (some 0) v := by
  obtain ⟨c, y', hskip, -, -, -⟩ := skip_append (u := u) hd hblank
  rw [codeFields_zero, hskip, if_neg (by simp)]
  intro h
  have := fields_zero_le (c :: (y' ++ u)) (h ▸ List.mem_singleton.2 rfl)
  simp only [List.length_cons, List.length_append] at this
  omega

/-- **The loop falls behind.** A loop that stands at a mark the rule is past, with nothing but
delimiters between them, never makes the fields of the rule. -/
theorem codeFields_ne {c : α} {x u : List α} (hc : D.mark c = true)
    (hx : ∀ d ∈ x, D.divides d = true) (hu : ∀ d ∈ u.head?, D.blank d = false) :
    codeFields D left skipping ended (c :: (x ++ u)) ≠ D.fields left u := by
  induction hn : (x ++ u).length using Nat.strong_induction_on
    generalizing c x u left skipping ended with
  | _ n ih =>
    have hcb := not_blank_of_mark hc
    by_cases hleft : left = some 0
    · subst hleft
      exact codeFields_zero_ne (y := c :: x) List.mem_cons_self hcb (Nat.le_refl _)
    intro h
    rw [codeFields_divides hleft (Delimiters.divides_iff.2 (.inr hc)) fun _ => hcb, hcb] at h
    obtain ⟨d, rest, rfl, hd, hrest⟩ := fields_eq_nil_cons hu hleft h.symm
    obtain ⟨blanks, hblanks, hall⟩ := Delimiters.exists_blanks (D := D) rest
    have hdb := not_blank_of_mark hd
    have hhead := Delimiters.head_skip (D := D) rest
    generalize hu₂ : D.skip rest = u₂ at hblanks hhead hrest
    subst hblanks
    have hbdiv : ∀ e ∈ blanks, D.divides e = true := fun e he =>
      Delimiters.divides_iff.2 (.inl (hall e he))
    cases x with
    | nil => exact ih _ (by simp [← hn]) hd hbdiv hhead rfl hrest
    | cons w x =>
      rw [List.forall_mem_cons] at hx
      have hmid : ∀ e ∈ x ++ d :: blanks, D.divides e = true := fun e he =>
        (List.mem_append.1 he).elim (hx.2 e) fun he => (List.mem_cons.1 he).elim
          (fun he => he ▸ Delimiters.divides_iff.2 (.inr hd)) (hbdiv e)
      have hassoc : x ++ d :: (blanks ++ u₂) = (x ++ d :: blanks) ++ u₂ := by simp
      rw [List.cons_append, hassoc] at hrest
      rcases Delimiters.divides_iff.1 hx.1 with hw | hw
      · by_cases hleft' : left.map (· - 1) = some 0
        · rw [hleft'] at hrest
          exact codeFields_zero_ne (y := w :: (x ++ d :: blanks)) (d := d) (by simp) hdb
            (Nat.le_refl _) hrest
        · rw [@codeFields_divides _ _ _ _ false _ _ hleft' hx.1 nofun, hw,
            @codeFields_skip _ _ _ _ false] at hrest
          obtain ⟨d₂, r₂, rfl, hd₂, hrest⟩ := fields_eq_nil_cons hhead hleft' hrest.symm
          obtain ⟨blanks₂, hblanks₂, hall₂⟩ := Delimiters.exists_blanks (D := D) r₂
          have hhead₂ := Delimiters.head_skip (D := D) r₂
          generalize hu₃ : D.skip r₂ = u₃ at hblanks₂ hhead₂ hrest
          subst hblanks₂
          have hassoc₂ : (x ++ d :: blanks) ++ d₂ :: (blanks₂ ++ u₃) =
              ((x ++ d :: blanks) ++ d₂ :: blanks₂) ++ u₃ := by simp
          obtain ⟨c', y', hskip, hc', hmem, hlen⟩ := skip_append (u := u₃)
            (y := (x ++ d :: blanks) ++ d₂ :: blanks₂) (d := d) (by simp) hdb
          have hdiv : ∀ e ∈ c' :: y', D.divides e = true := fun e he =>
            (List.mem_append.1 (hmem e he)).elim (hmid e) fun he => (List.mem_cons.1 he).elim
              (fun he => he ▸ Delimiters.divides_iff.2 (.inr hd₂))
              fun he => Delimiters.divides_iff.2 (.inl (hall₂ e he))
          rw [hassoc₂, hskip] at hrest
          rw [List.forall_mem_cons] at hdiv
          have hmark : D.mark c' = true :=
            (Delimiters.divides_iff.1 hdiv.1).resolve_left (by simp [hc'])
          refine ih _ ?_ hmark hdiv.2 hhead₂ rfl hrest
          simp only [List.length_append, List.length_cons] at hlen hn ⊢
          omega
      · refine ih _ ?_ hw hmid hhead rfl hrest
        simp only [List.length_append, List.length_cons] at hn ⊢
        omega

def Ends (D : Delimiters α) (s : List α) : Prop := ∀ c ∈ s.getLast?, D.blank c = false

theorem Ends.suffix {t : List α} (h : Ends D s) (ht : t <:+ s) : Ends D t := by
  intro c hc
  obtain ⟨r, rfl⟩ := ht
  refine h c ?_
  cases t with
  | nil => cases hc
  | cons a t => rwa [List.getLast?_append_of_ne_nil _ (List.cons_ne_nil _ _)]

theorem Ends.skip_ne_nil (h : Ends D s) (hs : s ≠ []) : D.skip s ≠ [] := by
  intro hnil
  have hall := List.dropWhile_eq_nil_iff.1 hnil
  have := h _ (List.getLast?_eq_some_getLast hs)
  rw [hall _ (List.getLast_mem hs)] at this
  cases this

theorem lastField_eq_iff : D.lastField s = s ↔ ¬ D.Terminated s := by
  unfold Delimiters.lastField
  split_ifs with h
  · refine iff_of_false (fun hfirst => ?_) (not_not.2 h)
    have hsplit := Delimiters.first_append_behind (D := D) s
    have hnil : D.behind s = [] := by
      rw [hfirst] at hsplit
      exact List.append_right_eq_self.1 hsplit
    unfold Delimiters.Terminated at h
    rw [hnil] at h
    exact h
  · exact iff_of_true rfl h

/-- **The rule and the loop.** From a field on they make the same fields exactly of the regular
lines. -/
theorem codeFields_eq_iff (hends : Ends D s)
    (hskipping : skipping = true ∨ left = some 0 ∨ D.skip s = s) (hended : s = [] → ended = true) :
    codeFields D left skipping ended s = D.fields left (D.skip s) ↔ Regular D left (D.skip s) := by
  induction hn : s.length using Nat.strong_induction_on generalizing s left skipping ended with
  | _ n ih =>
    by_cases hs : s = []
    · subst hs
      obtain rfl := hended rfl
      refine iff_of_true ?_ (by rw [Regular, if_pos (by rfl)]; trivial)
      rw [show D.skip [] = [] from rfl, D.fields_nil]
      by_cases hleft : left = some 0
      · rw [hleft, codeFields_zero, if_pos ⟨rfl, rfl⟩]
      · have hstart : fieldStart D skipping [] = [] := ite_self _
        rw [codeFields_only hleft (by rw [hstart]; rfl), hstart, if_pos ⟨rfl, rfl⟩]
    have hu := hends.skip_ne_nil hs
    by_cases hleft : left = some 0
    · subst hleft
      rw [codeFields_zero, if_neg fun h => hu h.1, D.fields_zero hu, regular_zero hu,
        ← lastField_eq_iff, List.cons.injEq, and_iff_left rfl, eq_comm]
    have hstart : fieldStart D skipping s = D.skip s := by
      unfold fieldStart
      split_ifs with h
      · rfl
      · exact ((hskipping.resolve_left h).resolve_left hleft).symm
    have husuf : D.skip s <:+ s := List.dropWhile_suffix _
    cases hbehind : D.behind (D.skip s) with
    | nil =>
      have hfirst : D.first (D.skip s) = D.skip s := by
        have := Delimiters.first_append_behind (D := D) (D.skip s)
        rwa [hbehind, List.append_nil] at this
      rw [codeFields_only hleft (hstart ▸ hbehind), hstart, hfirst, if_neg fun h => hu h.1,
        D.fields_only hleft hu hbehind]
      exact iff_of_true rfl (regular_only hleft hbehind)
    | cons d rest =>
      have hdsuf : d :: rest <:+ s := by
        rw [← hbehind]
        exact (List.dropWhile_suffix _).trans husuf
      have hrestsuf : rest <:+ s := (List.suffix_cons _ _).trans hdsuf
      have hlen : rest.length < n := by
        have := hdsuf.length_le
        rw [List.length_cons] at this
        omega
      rw [codeFields_cons hleft (hstart ▸ hbehind), hstart, D.fields_cons hleft hbehind,
        List.cons.injEq, and_iff_right rfl, regular_cons hleft hbehind]
      have hrest := hends.suffix hrestsuf
      have hd := Delimiters.divides_of_behind hbehind
      cases hblank : D.blank d with
      | true =>
        rw [Delimiters.afterDelimiter, if_pos hblank]
        have hne : rest ≠ [] := by
          rintro rfl
          have := hends.suffix hdsuf d rfl
          rw [hblank] at this
          cases this
        have hskip := hrest.skip_ne_nil hne
        obtain ⟨c, r, hc⟩ := List.exists_cons_of_ne_nil hskip
        rw [hc]
        dsimp only
        cases hmark : D.mark c with
        | true =>
          -- whitespace before a mark: the loop divides at both
          refine iff_of_false (fun h => ?_) fun h => ?_
          · obtain ⟨blanks, hblanks, hall⟩ := Delimiters.exists_blanks (D := D) r
            rw [@codeFields_skip _ _ _ _ true, hc, if_pos rfl] at h
            conv_lhs at h => rw [hblanks]
            exact absurd h <| codeFields_ne hmark (fun e he => Delimiters.divides_iff.2 (.inl (hall e he)))
              (Delimiters.head_skip r)
          · have := h.1 rfl c rfl
            rw [hmark] at this
            cases this
        | false =>
          rw [if_neg (by simp), ← hc]
          have := @ih _ hlen _ (left.map (· - 1)) true (!true) hrest
            (.inl rfl) (fun h => absurd h hne) rfl
          rw [this]
          constructor
          · exact fun h => ⟨fun _ e he => by
              rw [hc] at he
              rw [← Option.some.inj he, hmark], nofun, h⟩
          · exact fun h => h.2.2
      | false =>
        rw [Delimiters.afterDelimiter, if_neg (by simp [hblank])]
        by_cases hgo : left = some 1 ∨ ∀ c ∈ rest.head?, D.blank c = false
        · have hskipping' : (false = true) ∨ left.map (· - 1) = some 0 ∨ D.skip rest = rest := by
            rcases hgo with rfl | h
            · exact .inr (.inl rfl)
            · exact .inr (.inr (Delimiters.skip_eq_self h))
          rw [@ih _ hlen _ _ _ (!false) hrest hskipping' (fun _ => rfl) rfl]
          exact ⟨fun h => ⟨nofun, fun _ => hgo, h⟩, fun h => h.2.2⟩
        · -- whitespace behind a mark: the loop divides at both
          refine iff_of_false (fun h => ?_) fun h => hgo (h.2.1 rfl)
          push Not at hgo
          obtain ⟨hone, w, hw, hwb⟩ := hgo
          have hwb : D.blank w = true := by simpa using hwb
          have hleft' : left.map (· - 1) ≠ some 0 := by
            intro h
            cases left with
            | none => cases h
            | some n =>
              have : n - 1 = 0 := Option.some.inj h
              have h0 : n ≠ 0 := fun h => hleft (by rw [h])
              exact hone (by rw [show n = 1 by omega])
          obtain ⟨w', rest, rfl⟩ := List.exists_cons_of_ne_nil
            (show rest ≠ [] by rintro rfl; cases hw)
          obtain rfl : w' = w := Option.some.inj hw
          rw [@codeFields_divides _ _ _ _ false _ _ hleft' (Delimiters.divides_iff.2 (.inl hwb))
            nofun, hwb, @codeFields_skip _ _ _ _ false] at h
          obtain ⟨d₂, r₂, hr₂, hd₂, hrest₂⟩ := fields_eq_nil_cons (Delimiters.head_skip _) hleft'
            h.symm
          have hsame : D.skip (w' :: rest) = D.skip rest := List.dropWhile_cons_of_pos hwb
          obtain ⟨blanks, hblanks, hall⟩ := Delimiters.exists_blanks (D := D) r₂
          rw [← hsame, hr₂] at hrest₂
          conv_lhs at hrest₂ => rw [hblanks]
          exact codeFields_ne hd₂ (fun e he => Delimiters.divides_iff.2 (.inl (hall e he)))
            (Delimiters.head_skip r₂) hrest₂

theorem codeFields_length {n : ℕ} :
    (codeFields D (some n) skipping ended s).length ≤ n + 1 := by
  induction n generalizing s skipping ended with
  | zero =>
    rw [codeFields_zero]
    split_ifs
    · exact Nat.zero_le _
    · exact Nat.le_refl _
  | succ n ih =>
    have hleft : some (n + 1) ≠ some 0 := by simp
    cases hbehind : D.behind (fieldStart D skipping s) with
    | nil =>
      rw [codeFields_only hleft hbehind]
      split_ifs
      · exact Nat.zero_le _
      · simp
    | cons d rest =>
      rw [codeFields_cons hleft hbehind, List.length_cons]
      exact Nat.succ_le_succ ih

end Rule

/-! ## The fields of a line -/

/-- The fields of a line by the shell's rule, `maxFields` of them at most. -/
def fieldsByRule (ifs line : List Char) (maxFields : Option ℕ) : List (List Char) :=
  (ifsDelimiters ifs).fields (maxFields.map (· - 1)) ((ifsDelimiters ifs).trim line)

/-- The values of `k` variables by the rule: a field each, as far as there are any. -/
def valuesByRule (ifs line : List Char) (k : ℕ) : List (List Char) :=
  (List.range k).map fun i => (fieldsByRule ifs line (some k)).getD i []

def DividesByRule (ifs line : List Char) (maxFields : Option ℕ) : Prop :=
  splitLineByIfs ifs line maxFields = fieldsByRule ifs line maxFields ∧
    ∀ k, maxFields = some k → 0 < k →
      namedValues (splitLineByIfs ifs line maxFields) k = valuesByRule ifs line k

theorem ends_trim (D : Delimiters Char) (line : List Char) : Ends D (D.trim line) := by
  intro c hc
  have hne : D.trim line ≠ [] := by
    intro h
    rw [h] at hc
    cases hc
  rw [List.getLast?_eq_some_getLast hne] at hc
  rw [← Option.some.inj hc]
  exact eq_false_of_ne_true (List.rdropWhile_last_not D.blank (D.skip line) hne)

theorem skip_trim (D : Delimiters Char) (line : List Char) : D.skip (D.trim line) = D.trim line := by
  refine Delimiters.skip_eq_self fun c hc => Delimiters.head_skip line c ?_
  obtain ⟨r, hr⟩ := List.rdropWhile_prefix D.blank (D.skip line)
  cases ht : D.trim line with
  | nil =>
    rw [ht] at hc
    cases hc
  | cons a t =>
    rw [ht] at hc
    rw [← hr, show (D.skip line).rdropWhile D.blank = a :: t from ht]
    exact hc

theorem namedValues_eq {fields : List (List Char)} {k : ℕ} (h : fields.length ≤ k) :
    namedValues fields k = (List.range k).map fun i => fields.getD i [] := by
  induction k using Nat.strong_induction_on generalizing fields with
  | _ k ih =>
    match k with
    | 0 => rfl
    | 1 =>
      match fields with
      | [] => rfl
      | [field] => simp [namedValues, List.intercalate]
      | _ :: _ :: rest =>
        rw [List.length_cons, List.length_cons] at h
        omega
    | k + 2 =>
      rw [List.range_succ_eq_map, List.map_cons, List.map_map]
      cases fields with
      | nil =>
        rw [namedValues, ih (k + 1) (by omega) (Nat.zero_le _)]
        simp [Function.comp_def]
      | cons field rest =>
        rw [namedValues, ih (k + 1) (by omega) (by simpa using h)]
        simp [Function.comp_def]

theorem splitLineByIfs_eq (ifs line : List Char) (maxFields : Option ℕ) :
    splitLineByIfs ifs line maxFields = if (ifsDelimiters ifs).trim line = [] then [] else
      codeFields (ifsDelimiters ifs) (maxFields.map (· - 1)) false false
        ((ifsDelimiters ifs).trim line) := by
  unfold splitLineByIfs
  show (if (ifsDelimiters ifs).trim line = [] then [] else _) = _
  split_ifs
  · rfl
  · have hleft : leftFields maxFields [] = maxFields.map (· - 1) := by
      cases maxFields <;> rfl
    have := @finish_foldl ifs maxFields ((ifsDelimiters ifs).trim line) []
      false false
    rwa [hleft, List.nil_append] at this

/-- **The fields of `read`.** A line is divided by the shell's rule exactly when, without the
whitespace around it, it is regular: up to the last delimiter that divides anything off, no
whitespace of `IFS` stands next to another character of it, and what is left for the last variable is
not one field with its delimiter. -/
theorem dividesByRule_iff (ifs line : List Char) (maxFields : Option ℕ) :
    DividesByRule ifs line maxFields ↔
      Regular (ifsDelimiters ifs) (maxFields.map (· - 1)) ((ifsDelimiters ifs).trim line) := by
  have hsplit : splitLineByIfs ifs line maxFields = fieldsByRule ifs line maxFields ↔
      Regular (ifsDelimiters ifs) (maxFields.map (· - 1)) ((ifsDelimiters ifs).trim line) := by
    rw [splitLineByIfs_eq, fieldsByRule]
    split_ifs with h
    · rw [h, Delimiters.fields_nil, Regular, if_pos rfl, eq_self_iff_true]
    · have := @codeFields_eq_iff _ _ _ (maxFields.map (· - 1)) false
        false (ends_trim (ifsDelimiters ifs) line) (.inr (.inr (skip_trim _ line)))
        (fun hnil => absurd hnil h)
      rwa [skip_trim] at this
  rw [← hsplit]
  refine ⟨And.left, fun h => ⟨h, ?_⟩⟩
  rintro k rfl hk
  rw [valuesByRule, ← h]
  refine namedValues_eq ?_
  rw [splitLineByIfs_eq]
  split_ifs
  · exact Nat.zero_le _
  · refine codeFields_length.trans ?_
    show k - 1 + 1 ≤ k
    omega

/-- **Whitespace next to a delimiter.** `a : b` has two fields by the rule and four by the loop, and
the last of two variables keeps the delimiter that ends its only field. -/
theorem not_dividesByRule : ¬ DividesByRule [' ', ':'] "a : b".toList none ∧
    ¬ DividesByRule [':'] "x:y:".toList (some 2) := by
  have hne : ∀ {ifs line : List Char} {maxFields : Option ℕ} {code rule : List (List Char)},
      splitLineByIfs ifs line maxFields = code → fieldsByRule ifs line maxFields = rule →
        code ≠ rule → ¬ DividesByRule ifs line maxFields :=
    fun hcode hrule hne h => hne (hcode.symm.trans (h.1.trans hrule))
  refine ⟨@hne _ _ _ [['a'], [], [], ['b']] [['a'], ['b']] (by decide) ?_ (by decide),
    @hne _ _ _ [['x'], ['y', ':']] [['x'], ['y']] (by decide) ?_ (by decide)⟩
  · show (ifsDelimiters [' ', ':']).fields none "a : b".toList = _
    rw [Delimiters.fields_cons (by simp)
      (show (ifsDelimiters [' ', ':']).behind "a : b".toList = ' ' :: ": b".toList by decide),
      show (ifsDelimiters [' ', ':']).afterDelimiter ' ' ": b".toList = ['b'] by decide,
      Delimiters.fields_only (by simp) (by simp) (by decide)]
    decide
  · show (ifsDelimiters [':']).fields (some 1) "x:y:".toList = _
    rw [Delimiters.fields_cons (by simp)
      (show (ifsDelimiters [':']).behind "x:y:".toList = ':' :: "y:".toList by decide),
      show (ifsDelimiters [':']).afterDelimiter ':' "y:".toList = "y:".toList by decide]
    show _ :: (ifsDelimiters [':']).fields (some 0) "y:".toList = _
    rw [Delimiters.fields_zero (by decide)]
    decide

end Seahaven.ReadLine
