import Mathlib.Data.List.Induction
import Mathlib.Tactic.Push
import Seahaven.Shell.Fields

/-!
# The rule of field splitting

What the shell's rule makes of the expansions of a word, compared with `split_fields`.

1. `Symbol`: what a character is to the rule. `ruleSymbols`: only what an unquoted expansion
   answers may delimit. `codeSymbols`: anything that may be split.
2. `ruleFields`, `codeFields`: the fields of symbols, by the rule and with every delimiter the same.
3. `codeFields_eq`: the latter are the former without the empty ones.
4. `splitFields_rule_iff`: when a word is split by the rule.
-/

namespace Seahaven.Shell

open Seahaven.Parser

/-! ## Symbols -/

/-- What is split: something quoted, a character, whitespace of `IFS` or another character of it. -/
inductive Symbol
  | quoted (s : List Char)
  | char (c : Char)
  | white
  | separator
  deriving DecidableEq

/-- The whitespace that may be in `IFS`. -/
def isIfsWhitespace (c : Char) : Bool := [' ', '\t', '\n'].contains c

def classify (ifs : List Char) (c : Char) : Symbol :=
  if !ifs.contains c then .char c else if isIfsWhitespace c then .white else .separator

/-- A piece of an expansion, and whether it is written so in the word. -/
structure WordPart where
  literal : Bool
  piece : ExpansionPiece
  deriving DecidableEq

def codeSymbols (ifs : List Char) : ExpansionPiece → List Symbol
  | .unsplittable s => [.quoted s]
  | .splittable s => s.map (classify ifs)

/-- The symbols of a piece by the rule: what is written so in the word does not delimit. -/
def ruleSymbols (ifs : List Char) (p : WordPart) : List Symbol :=
  match p.literal, p.piece with
  | true, .splittable s => s.map .char
  | _, piece => codeSymbols ifs piece

/-! ## Fields of symbols -/

namespace Splitting

def add (st : Splitting) : Symbol → Splitting
  | .quoted s => { st with current := st.current ++ [.unsplittable s] }
  | .char c => { st with current := pushChar st.current c }
  | _ => st

def stepAlike (st : Splitting) (x : Symbol) : Splitting :=
  if x = .white ∨ x = .separator then st.flush else st.add x

def stepsAlike (st : Splitting) (symbols : List Symbol) : Splitting :=
  (symbols.foldl stepAlike st).flush

end Splitting

/-- The fields, and whether the last of them was ended by whitespace. -/
structure RuleSplitting extends Splitting where
  afterWhite : Bool
  deriving DecidableEq

namespace RuleSplitting

/-- One symbol, by the rule. A separator ends a field, or goes with the whitespace that ended it, or
delimits an empty one. -/
def step (st : RuleSplitting) : Symbol → RuleSplitting
  | .white => if st.current ≠ [] then ⟨st.flush, true⟩ else st
  | .separator =>
    if st.current ≠ [] then ⟨st.flush, false⟩
    else if st.afterWhite then { st with afterWhite := false }
    else { st with fields := st.fields ++ [[]] }
  | x => ⟨st.add x, false⟩

def steps (st : RuleSplitting) (symbols : List Symbol) : RuleSplitting :=
  ⟨(symbols.foldl step st).flush, false⟩

end RuleSplitting

def codeFields (fields : List (List Symbol)) : List WordField :=
  (fields.foldl Splitting.stepsAlike ⟨[], []⟩).fields

/-- **The rule.** Whitespace at the ends of a field is passed over and a run of it delimits. Any
other character of `IFS` delimits with the whitespace about it. -/
def ruleFields (fields : List (List Symbol)) : List WordField :=
  (fields.foldl RuleSplitting.steps ⟨⟨[], []⟩, false⟩).fields

/-! ## What the two differ in -/

theorem pushChar_ne_nil (field : WordField) (c : Char) : pushChar field c ≠ [] := by
  unfold pushChar
  split <;> simp

variable {st : Splitting}

namespace Splitting

@[simp] theorem flush_current (st : Splitting) : st.flush.current = [] := by
  unfold flush
  split_ifs with h
  · rfl
  · exact not_not.1 h

theorem flush_of_ne (h : st.current ≠ []) :
    st.flush = ⟨st.fields ++ [st.current], []⟩ := if_pos h

theorem flush_of_eq (h : st.current = []) : st.flush = st := if_neg (not_not.2 h)

end Splitting

def Symbol.IsKept : Symbol → Prop
  | .quoted _ | .char _ => True
  | _ => False

variable {x : Symbol}

theorem add_current_ne (h : x.IsKept) : (st.add x).current ≠ [] := by
  cases x with
  | quoted s => simp [Splitting.add]
  | char c => exact pushChar_ne_nil _ _
  | white => exact h.elim
  | separator => exact h.elim

/-- What is made alike of the same symbols: the fields without those that are empty. -/
structure Alike (st : Splitting) (rst : RuleSplitting) : Prop where
  fields : st.fields = rst.fields.filter (· ≠ [])
  current : st.current = rst.current

variable {rst : RuleSplitting}

theorem Alike.flush (h : Alike st rst) (b : Bool) :
    Alike st.flush ⟨rst.flush, b⟩ := by
  obtain ⟨hf, hc⟩ := h
  by_cases hne : rst.current = []
  · rw [Splitting.flush_of_eq hne, Splitting.flush_of_eq (hc.trans hne)]
    exact ⟨hf, hc⟩
  · rw [Splitting.flush_of_ne hne, Splitting.flush_of_ne (hc ▸ hne)]
    refine ⟨?_, rfl⟩
    rw [hf, hc, List.filter_append]
    simp [hne]

theorem Alike.step (h : Alike st rst) (x : Symbol) :
    Alike (st.stepAlike x) (rst.step x) := by
  cases x with
  | quoted s => exact ⟨h.fields, congrArg (· ++ _) h.current⟩
  | char c => exact ⟨h.fields, congrArg (pushChar · c) h.current⟩
  | white =>
    rw [Splitting.stepAlike, if_pos (.inl rfl), RuleSplitting.step]
    split_ifs with hne
    · exact h.flush true
    · rw [Splitting.flush_of_eq (h.current.trans (not_not.1 hne))]
      exact h
  | separator =>
    rw [Splitting.stepAlike, if_pos (.inr rfl), RuleSplitting.step]
    split_ifs with hne hw
    · exact h.flush false
    · rw [Splitting.flush_of_eq (h.current.trans (not_not.1 hne))]
      exact ⟨h.fields, h.current⟩
    · rw [Splitting.flush_of_eq (h.current.trans (not_not.1 hne))]
      exact ⟨by simpa using h.fields, h.current⟩

theorem Alike.steps (h : Alike st rst)
    (symbols : List Symbol) :
    Alike (symbols.foldl Splitting.stepAlike st) (symbols.foldl RuleSplitting.step rst) := by
  induction symbols generalizing st rst with
  | nil => exact h
  | cons x symbols ih => exact ih (h.step x)

/-- **What is split alike.** The fields are those of the rule, without the empty ones. -/
theorem codeFields_eq (fields : List (List Symbol)) :
    codeFields fields = (ruleFields fields).filter (· ≠ []) := by
  suffices h : ∀ st rst, Alike st rst → Alike
      (fields.foldl Splitting.stepsAlike st) (fields.foldl RuleSplitting.steps rst) from
    (h ⟨[], []⟩ ⟨⟨[], []⟩, false⟩ ⟨rfl, rfl⟩).fields
  induction fields with
  | nil => exact fun _ _ h => h
  | cons symbols fields ih => exact fun st rst h => ih _ _ ((h.steps symbols).flush false)

/-! ## When no field is empty -/

def Follows (before : List Symbol) : Prop :=
  ∃ l x ws, before = l ++ x :: ws ∧ x.IsKept ∧ ∀ w ∈ ws, w = .white

def NoEmpty (symbols : List Symbol) : Prop :=
  ∀ l₁ l₂, symbols = l₁ ++ .separator :: l₂ → Follows l₁

theorem not_follows_nil : ¬Follows [] := by
  rintro ⟨l, x, ws, h, -⟩
  simp at h

variable {l : List Symbol}

theorem follows_kept (hx : x.IsKept) : Follows (l ++ [x]) :=
  ⟨l, x, [], rfl, hx, nofun⟩

theorem follows_white : Follows (l ++ [.white]) ↔ Follows l := by
  constructor
  · rintro ⟨l', x, ws, h, hx, hws⟩
    rcases List.eq_nil_or_concat ws with rfl | ⟨ws, w, rfl⟩
    · obtain rfl := (List.append_inj' h rfl).2 |> List.cons.inj |>.1
      exact hx.elim
    · rw [List.concat_eq_append, ← List.cons_append, ← List.append_assoc] at h
      exact ⟨l', x, ws, (List.append_inj' h rfl).1, hx, fun w hw =>
        hws w (by simp [hw])⟩
  · rintro ⟨l', x, ws, rfl, hx, hws⟩
    refine ⟨l', x, ws ++ [.white], by simp, hx, fun w hw => ?_⟩
    rcases List.mem_append.1 hw with hw | hw
    · exact hws w hw
    · exact List.mem_singleton.1 hw

theorem not_follows_separator : ¬Follows (l ++ [.separator]) := by
  rintro ⟨l', x, ws, h, hx, hws⟩
  rcases List.eq_nil_or_concat ws with rfl | ⟨ws, w, rfl⟩
  · obtain rfl := (List.append_inj' h rfl).2 |> List.cons.inj |>.1
    exact hx
  · rw [List.concat_eq_append, ← List.cons_append, ← List.append_assoc] at h
    obtain rfl := (List.append_inj' h rfl).2 |> List.cons.inj |>.1
    cases hws .separator (by simp)

theorem noEmpty_append : NoEmpty (l ++ [x]) ↔ NoEmpty l ∧ (x = .separator → Follows l) := by
  constructor
  · intro h
    refine ⟨fun l₁ l₂ hl => h l₁ (l₂ ++ [x]) (by simp [hl]), ?_⟩
    rintro rfl
    exact h l [] rfl
  · rintro ⟨hl, hx⟩ l₁ l₂ h
    rcases List.eq_nil_or_concat l₂ with rfl | ⟨l₂, y, rfl⟩
    · obtain ⟨rfl, hlast⟩ := List.append_inj' h rfl
      exact hx (List.cons.inj hlast).1
    · rw [List.concat_eq_append, ← List.cons_append, ← List.append_assoc] at h
      exact hl l₁ l₂ (List.append_inj' h rfl).1

/-- What the rule has come to behind some symbols of a field. -/
structure Stands (st₀ st : RuleSplitting) (before : List Symbol) : Prop where
  follows : (st.current ≠ [] ∨ st.afterWhite = true) ↔ Follows before
  empty : [] ∈ st.fields ↔ [] ∈ st₀.fields ∨ ¬NoEmpty before

theorem mem_flush : [] ∈ st.flush.fields ↔ [] ∈ st.fields := by
  by_cases h : st.current = []
  · rw [Splitting.flush_of_eq h]
  · rw [Splitting.flush_of_ne h, List.mem_append, List.mem_singleton]
    exact or_iff_left fun he => h he.symm

theorem Stands.step {st₀ st : RuleSplitting} {before : List Symbol} (h : Stands st₀ st before)
    (x : Symbol) : Stands st₀ (st.step x) (before ++ [x]) := by
  obtain ⟨hfollows, hempty⟩ := h
  have hkept : ∀ y : Symbol, y.IsKept → ([] ∈ st.fields ↔ [] ∈ st₀.fields ∨
      ¬NoEmpty (before ++ [y])) := fun y hy => by
    rw [hempty, noEmpty_append, and_iff_left]
    rintro rfl
    exact hy.elim
  have hwhite : [] ∈ st.fields ↔ [] ∈ st₀.fields ∨ ¬NoEmpty (before ++ [.white]) := by
    rw [hempty, noEmpty_append, and_iff_left nofun]
  have hseparator : ∀ {P : Prop}, (P ↔ ([] ∈ st.fields ∨ ¬Follows before)) →
      (P ↔ [] ∈ st₀.fields ∨ ¬NoEmpty (before ++ [.separator])) := fun hP => by
    rw [hP, hempty, noEmpty_append]
    tauto
  cases x with
  | quoted s =>
    exact ⟨iff_of_true (.inl (add_current_ne (x := .quoted s) trivial)) (follows_kept trivial),
      hkept _ trivial⟩
  | char c =>
    exact ⟨iff_of_true (.inl (add_current_ne (x := .char c) trivial)) (follows_kept trivial),
      hkept _ trivial⟩
  | white =>
    rw [RuleSplitting.step]
    split_ifs with hne
    · exact ⟨iff_of_true (.inr rfl) (follows_white.2 (hfollows.1 (.inl hne))),
        mem_flush.trans hwhite⟩
    · exact ⟨hfollows.trans follows_white.symm, hwhite⟩
  | separator =>
    rw [RuleSplitting.step]
    split_ifs with hne hafter
    · refine ⟨iff_of_false ?_ not_follows_separator, hseparator (mem_flush.trans ?_)⟩
      · simp
      · exact (or_iff_left fun hn => hn (hfollows.1 (.inl hne))).symm
    · refine ⟨iff_of_false ?_ not_follows_separator, hseparator ?_⟩
      · simpa using hne
      · exact (or_iff_left fun hn => hn (hfollows.1 (.inr hafter))).symm
    · have hnot : ¬Follows before := fun hf => (hfollows.2 hf).elim hne hafter
      refine ⟨iff_of_false ?_ not_follows_separator, hseparator ?_⟩
      · exact fun hs => hs.elim hne hafter
      · simp [hnot]

theorem mem_steps {st : RuleSplitting} (hc : st.current = []) (ha : st.afterWhite = false)
    (symbols : List Symbol) : [] ∈ (st.steps symbols).fields ↔ [] ∈ st.fields ∨ ¬NoEmpty symbols := by
  have h : Stands st (symbols.foldl RuleSplitting.step st) symbols := by
    induction symbols using List.reverseRecOn with
    | nil =>
      refine ⟨iff_of_false (by simp [hc, ha]) not_follows_nil, (or_iff_left ?_).symm⟩
      exact fun hn => hn fun l₁ l₂ h => by simp at h
    | append_singleton symbols x ih =>
      rw [List.foldl_append]
      exact ih.step x
  exact mem_flush.trans h.empty

/-- **When no field is empty.** -/
theorem mem_ruleFields (fields : List (List Symbol)) :
    [] ∈ ruleFields fields ↔ ∃ symbols ∈ fields, ¬NoEmpty symbols := by
  suffices h : ∀ st : RuleSplitting, st.current = [] → st.afterWhite = false →
      ([] ∈ (fields.foldl RuleSplitting.steps st).fields ↔
        [] ∈ st.fields ∨ ∃ symbols ∈ fields, ¬NoEmpty symbols) by
    simpa [ruleFields] using h ⟨⟨[], []⟩, false⟩ rfl rfl
  induction fields with
  | nil => simp
  | cons symbols fields ih =>
    intro st hc ha
    rw [List.foldl_cons, ih _ (by exact Splitting.flush_current _) rfl, mem_steps hc ha]
    simp [or_assoc]

theorem codeFields_eq_iff (fields : List (List Symbol)) :
    codeFields fields = ruleFields fields ↔ ∀ symbols ∈ fields, NoEmpty symbols := by
  rw [codeFields_eq, List.filter_eq_self]
  have h := mem_ruleFields fields
  constructor
  · intro hall
    by_contra hex
    push Not at hex
    simpa using hall [] (h.2 hex)
  · intro hall field hf
    have hne : field ≠ [] := by
      rintro rfl
      obtain ⟨symbols, hs, hn⟩ := h.1 hf
      exact hn (hall symbols hs)
    simpa using hne

/-! ## What is kept -/

def Symbol.chars : Symbol → List Char
  | .quoted s => s
  | .char c => [c]
  | _ => []

theorem charsOf_pushChar (field : WordField) (c : Char) :
    charsOf (pushChar field c) = charsOf field ++ [c] := by
  unfold pushChar
  split
  · rename_i last hlast
    obtain ⟨init, rfl⟩ : ∃ init, field = init ++ [.splittable last] :=
      ⟨field.dropLast, (List.dropLast_append_getLast? _ hlast).symm⟩
    rw [List.dropLast_concat, charsOf_append, charsOf_append]
    simp [charsOf, ExpansionPiece.asStr]
  · rw [charsOf_append]
    rfl

namespace Splitting

def chars (st : Splitting) : List Char := charsOf (st.fields.flatten ++ st.current)

theorem chars_flush (st : Splitting) : st.flush.chars = st.chars := by
  by_cases h : st.current = []
  · rw [flush_of_eq h]
  · rw [flush_of_ne h]
    simp [chars]

theorem chars_add (st : Splitting) (hx : x.IsKept) :
    (st.add x).chars = st.chars ++ x.chars := by
  cases x with
  | quoted s =>
    unfold chars
    rw [add, ← List.append_assoc, charsOf_append]
    simp [charsOf, ExpansionPiece.asStr, Symbol.chars]
  | char c =>
    unfold chars
    rw [add, charsOf_append, charsOf_pushChar, charsOf_append, List.append_assoc]
    rfl
  | white => exact hx.elim
  | separator => exact hx.elim

end Splitting

theorem RuleSplitting.chars_step (st : RuleSplitting) (x : Symbol) :
    (st.step x).chars = st.chars ++ x.chars := by
  cases x with
  | quoted s => exact Splitting.chars_add st.toSplitting (x := .quoted s) trivial
  | char c => exact Splitting.chars_add st.toSplitting (x := .char c) trivial
  | white =>
    rw [step]
    split_ifs
    · exact (Splitting.chars_flush _).trans (List.append_nil _).symm
    · exact (List.append_nil _).symm
  | separator =>
    rw [step]
    split_ifs
    · exact (Splitting.chars_flush _).trans (List.append_nil _).symm
    · exact (List.append_nil _).symm
    · simp [Splitting.chars, Symbol.chars]

/-- **What the rule keeps** of the symbols: all but the delimiters, in order. -/
theorem chars_ruleFields (fields : List (List Symbol)) :
    charsOf (ruleFields fields).flatten = (fields.flatten.flatMap Symbol.chars) := by
  have hsteps : ∀ (symbols : List Symbol) (st : RuleSplitting),
      (symbols.foldl RuleSplitting.step st).chars = st.chars ++ symbols.flatMap Symbol.chars := by
    intro symbols
    induction symbols with
    | nil => simp
    | cons x symbols ih =>
      intro st
      rw [List.foldl_cons, ih, RuleSplitting.chars_step, List.flatMap_cons, List.append_assoc]
  have hfields : ∀ (fields : List (List Symbol)) (st : RuleSplitting), st.current = [] →
      charsOf (fields.foldl RuleSplitting.steps st).fields.flatten =
        st.chars ++ fields.flatten.flatMap Symbol.chars := by
    intro fields
    induction fields with
    | nil =>
      intro st hc
      simp [Splitting.chars, hc]
    | cons symbols fields ih =>
      intro st hc
      rw [List.foldl_cons, ih _ (by exact Splitting.flush_current _), List.flatten_cons,
        List.flatMap_append, ← List.append_assoc, ← hsteps symbols st]
      exact congrArg (· ++ _) (Splitting.chars_flush _)
  exact hfields fields ⟨⟨[], []⟩, false⟩ rfl

theorem chars_codeFields (fields : List (List Symbol)) :
    charsOf (codeFields fields).flatten = (fields.flatten.flatMap Symbol.chars) := by
  rw [codeFields_eq, ← chars_ruleFields]
  congr 1
  induction ruleFields fields with
  | nil => rfl
  | cons field l ih =>
    cases field with
    | nil => simpa using ih
    | cons p field => simpa using ih

/-! ## Words -/

def isLiteral {P A : Type} : WordPiece P A → Bool
  | .text _ | .escapeSequence _ => true
  | _ => false

/-- The fields of a word's expansions, each piece with whether it is written in the word. -/
def partsOf {P A : Type} (expansions : List (WordPiece P A × Expansion)) : List (List WordPart) :=
  expansions.foldl
    (fun acc x => joinFields acc (x.2.fields.map (List.map (WordPart.mk (isLiteral x.1))))) []

def fieldsByRule (ifs : List Char) (parts : List (List WordPart)) : List WordField :=
  ruleFields (parts.map (·.flatMap (ruleSymbols ifs)))

/-- Whether a piece has no character of `IFS` that is written so in the word. -/
def WordPart.Keeps (ifs : List Char) (p : WordPart) : Prop :=
  p.literal = true → ∀ s, p.piece = .splittable s → ∀ c ∈ s, c ∉ ifs

theorem splitPiece_eq (ifs : List Char) (st : Splitting) (p : ExpansionPiece) :
    st.splitPiece ifs p = (codeSymbols ifs p).foldl Splitting.stepAlike st := by
  cases p with
  | unsplittable s => rfl
  | splittable s =>
    rw [Splitting.splitPiece, codeSymbols, List.foldl_map]
    congr 1
    funext st c
    unfold Splitting.splitChar Splitting.stepAlike classify
    cases ifs.contains c with
    | false => rfl
    | true => cases isIfsWhitespace c <;> rfl

theorem splitFields_eq (ifs : List Char) (e : Expansion) :
    splitFields ifs e = codeFields (e.fields.map (·.flatMap (codeSymbols ifs))) := by
  unfold splitFields codeFields
  rw [List.foldl_map]
  congr 2
  funext st field
  unfold Splitting.splitField Splitting.stepsAlike
  rw [List.foldl_flatMap]
  congr 2
  funext st p
  exact splitPiece_eq ifs st p

theorem joinFields_map {α β : Type} (f : α → β) (acc fields : List (List α)) :
    (joinFields acc fields).map (List.map f) =
      joinFields (acc.map (List.map f)) (fields.map (List.map f)) := by
  cases fields with
  | nil => rfl
  | cons field fields =>
    unfold joinFields
    rw [List.map_cons]
    dsimp only
    rw [List.map_append, List.getLast?_map]
    cases acc.getLast? with
    | none => rfl
    | some last =>
      dsimp only [Option.map_some]
      rw [List.map_append, List.map_dropLast]
      simp

theorem partsOf_pieces {P A : Type} (pieces : List (WordPiece P A)) (es : List Expansion)
    (hlen : es.length = pieces.length) :
    (partsOf (pieces.zip es)).map (List.map WordPart.piece) = (coalesceExpansions es).fields := by
  suffices h : ∀ (acc : List (List WordPart)) (e : Expansion), acc.map (List.map WordPart.piece) = e.fields →
      ((pieces.zip es).foldl
        (fun acc x => joinFields acc (x.2.fields.map (List.map (WordPart.mk (isLiteral x.1))))) acc).map
          (List.map WordPart.piece) =
        (es.foldl (fun acc e => { acc with
          fields := joinFields acc.fields e.fields
          concatenate := e.concatenate
          fromArray := e.fromArray }) e).fields from h [] {} rfl
  induction es generalizing pieces with
  | nil =>
    intro acc e he
    simpa using he
  | cons e' es ih =>
    intro acc e he
    cases pieces with
    | nil => cases hlen
    | cons w pieces =>
      rw [List.zip_cons_cons, List.foldl_cons, List.foldl_cons]
      refine ih pieces (by simpa using hlen) _ _ ?_
      rw [joinFields_map, he, List.map_map]
      dsimp only
      congr 1
      refine (List.map_congr_left fun field _ => ?_).trans (List.map_id _)
      rw [Function.comp_apply, List.map_map]
      exact List.map_id _

theorem chars_classify (ifs s : List Char) :
    (s.map (classify ifs)).flatMap Symbol.chars = s.filter fun c => !ifs.contains c := by
  induction s with
  | nil => rfl
  | cons c s ih =>
    rw [List.map_cons, List.flatMap_cons, ih, List.filter_cons]
    unfold classify
    cases ifs.contains c with
    | false => rfl
    | true => cases isIfsWhitespace c <;> rfl

theorem chars_literal (s : List Char) : (s.map Symbol.char).flatMap Symbol.chars = s := by
  induction s with
  | nil => rfl
  | cons c s ih =>
    rw [List.map_cons, List.flatMap_cons, ih]
    rfl

theorem chars_le (ifs : List Char) (p : WordPart) :
    ((codeSymbols ifs p.piece).flatMap Symbol.chars).length ≤
        ((ruleSymbols ifs p).flatMap Symbol.chars).length ∧
      (((codeSymbols ifs p.piece).flatMap Symbol.chars).length =
        ((ruleSymbols ifs p).flatMap Symbol.chars).length → p.Keeps ifs) := by
  obtain ⟨literal, piece⟩ := p
  cases literal with
  | false => exact ⟨Nat.le_refl _, fun _ => nofun⟩
  | true =>
    cases piece with
    | unsplittable s => exact ⟨Nat.le_refl _, fun _ _ => nofun⟩
    | splittable s =>
      change ((s.map (classify ifs)).flatMap Symbol.chars).length ≤
        ((s.map Symbol.char).flatMap Symbol.chars).length ∧ (_ = _ → _)
      rw [chars_classify, chars_literal]
      refine ⟨List.length_filter_le _ _, fun h _ s' hs' c hc hmem => ?_⟩
      obtain rfl := ExpansionPiece.splittable.inj hs'
      change ((s.map (classify ifs)).flatMap Symbol.chars).length =
        ((s.map Symbol.char).flatMap Symbol.chars).length at h
      rw [chars_classify, chars_literal] at h
      have := List.length_filter_eq_length_iff.1 h c hc
      simp [hmem] at this

variable {ifs : List Char}

theorem symbols_eq {p : WordPart} (h : p.Keeps ifs) :
    codeSymbols ifs p.piece = ruleSymbols ifs p := by
  obtain ⟨literal, piece⟩ := p
  cases literal with
  | false => rfl
  | true =>
    cases piece with
    | unsplittable s => rfl
    | splittable s =>
      refine List.map_congr_left fun c hc => ?_
      have hnot : ifs.contains c = false := by simpa using h rfl s rfl c hc
      unfold classify
      rw [hnot]
      rfl

theorem keeps_of_length {parts : List WordPart}
    (h : ((parts.flatMap fun p => codeSymbols ifs p.piece).flatMap Symbol.chars).length =
      ((parts.flatMap (ruleSymbols ifs)).flatMap Symbol.chars).length) :
    ∀ p ∈ parts, p.Keeps ifs := by
  have hle : ∀ parts : List WordPart,
      ((parts.flatMap fun p => codeSymbols ifs p.piece).flatMap Symbol.chars).length ≤
        ((parts.flatMap (ruleSymbols ifs)).flatMap Symbol.chars).length := by
    intro parts
    induction parts with
    | nil => exact Nat.le_refl _
    | cons p parts ih =>
      simp only [List.flatMap_cons, List.flatMap_append, List.length_append]
      exact Nat.add_le_add (chars_le ifs p).1 ih
  induction parts with
  | nil => exact nofun
  | cons p parts ih =>
    simp only [List.flatMap_cons, List.flatMap_append, List.length_append] at h
    have hp := (chars_le ifs p).1
    have hparts := hle parts
    exact List.forall_mem_cons.2 ⟨(chars_le ifs p).2 (by omega), ih (by omega)⟩

theorem splitFields_eq_iff {e : Expansion} {parts : List (List WordPart)}
    (he : parts.map (List.map WordPart.piece) = e.fields) :
    splitFields ifs e = fieldsByRule ifs parts ↔
      (∀ field ∈ parts, ∀ p ∈ field, p.Keeps ifs) ∧
        ∀ field ∈ parts, NoEmpty (field.flatMap (ruleSymbols ifs)) := by
  have hcode : splitFields ifs e =
      codeFields (parts.map fun field => field.flatMap fun p => codeSymbols ifs p.piece) := by
    rw [splitFields_eq, ← he, List.map_map]
    congr 2
    funext field
    exact List.flatMap_map _ _ _
  have hkeeps : (∀ field ∈ parts, ∀ p ∈ field, p.Keeps ifs) →
      (parts.map fun field => field.flatMap fun p => codeSymbols ifs p.piece) =
        parts.map (·.flatMap (ruleSymbols ifs)) := fun h =>
    List.map_congr_left fun field hfield => by
      rw [List.flatMap_def, List.flatMap_def]
      exact congrArg _ (List.map_congr_left fun p hp => symbols_eq (h field hfield p hp))
  have hiff := codeFields_eq_iff (parts.map (·.flatMap (ruleSymbols ifs)))
  rw [List.forall_mem_map] at hiff
  rw [hcode, fieldsByRule]
  constructor
  · intro heq
    have hkept : ∀ field ∈ parts, ∀ p ∈ field, p.Keeps ifs := by
      have hlen := congrArg (fun fields => (charsOf (List.flatten fields)).length) heq
      rw [chars_codeFields, chars_ruleFields, ← List.flatMap_def, ← List.flatMap_def] at hlen
      have hall : ∀ p ∈ parts.flatten, p.Keeps ifs := keeps_of_length (by
        rw [← List.flatMap_id]
        simp only [List.flatMap_assoc, id] at hlen ⊢
        exact hlen)
      exact fun field hfield p hp => hall p (List.mem_flatten.2 ⟨field, hfield, hp⟩)
    exact ⟨hkept, hiff.1 (hkeeps hkept ▸ heq)⟩
  · rintro ⟨hkept, hno⟩
    rw [hkeeps hkept]
    exact hiff.2 hno

theorem expandWordPieces_length {P A : Type} {X : Expander P A} {h : UnquotedBackslashHandling}
    {pieces : List (WordPiece P A)} {es : List Expansion} {st st' : X.State}
    (hrun : expandWordPieces X h pieces st = (.ok es, st')) : es.length = pieces.length := by
  induction pieces generalizing es st st' with
  | nil =>
    obtain ⟨rfl, -⟩ : [] = es ∧ st = st' := by simpa [expandWordPieces] using hrun
    rfl
  | cons piece pieces ih =>
    rw [expandWordPieces] at hrun
    obtain ⟨e, st₁, -, hrun⟩ := Op.bind_eq_ok.1 hrun
    obtain ⟨es', st₂, hes', hrun⟩ := Op.bind_eq_ok.1 hrun
    obtain ⟨rfl, -⟩ : e :: es' = es ∧ st₂ = st' := by simpa using hrun
    rw [List.length_cons, List.length_cons, ih hes']

/-- A word whose pieces expand is expanded to the pathnames of its fields, and these are as the
rule has them just if no character of `IFS` is written in the word out of quotes, and every
separator comes behind something of its field. -/
theorem fullExpand_rule_iff {P A : Type} (X : Expander P A) (h : UnquotedBackslashHandling)
    (pieces : List (WordPiece P A)) (st st' : X.State) (es : List Expansion)
    (hrun : expandWordPieces X h pieces st = (.ok es, st')) :
    fullExpandWithSplitting X h pieces st =
        expandPathnames X (splitFields (X.ifs st') (coalesceExpansions es)) st' ∧
      (splitFields (X.ifs st') (coalesceExpansions es) =
          fieldsByRule (X.ifs st') (partsOf (pieces.zip es)) ↔
        (∀ field ∈ partsOf (pieces.zip es), ∀ p ∈ field, p.Keeps (X.ifs st')) ∧
          ∀ field ∈ partsOf (pieces.zip es),
            NoEmpty (field.flatMap (ruleSymbols (X.ifs st')))) := by
  constructor
  · unfold fullExpandWithSplitting
    rw [Op.bind_ok hrun]
    rfl
  · exact splitFields_eq_iff (partsOf_pieces pieces es (expandWordPieces_length hrun))

section Fixture

/-- A shell with one parameter, in which pathnames are not expanded. -/
def oneParameter (ifs value : String) : Expander Unit Empty where
  State := Unit
  Error := EscapeError
  ifs _ := ifs.toList
  expandParameterExpr _ _ := pure (.ofPiece (.splittable value.toList))
  expandTildeExpression _ := pure ['/']
  commandOutput _ := pure []
  expandArithmeticExpr e := nomatch e
  escapeError e := e
  expandPathnamesInField field := pure [charsOf field]

/-- With `:` for `IFS`, a parameter `a::b` gives two fields, and by the rule there are three. -/
theorem not_splitByRule :
    splitFields [':'] (coalesceExpansions [.ofPiece (.splittable "a::b".toList)]) ≠
      fieldsByRule [':'] (partsOf ([(.parameterExpansion () : WordPiece Unit Empty)].zip
        [.ofPiece (.splittable "a::b".toList)])) := by
  decide

/-- `x$p`, where `p` is `a:b`. -/
theorem fullExpand_x : fullExpandWithSplitting (oneParameter ":" "a:b") .strip
    [.text ['x'], .parameterExpansion ()] () = (.ok [['x', 'a'], ['b']], ()) :=
  (fullExpand_rule_iff (oneParameter ":" "a:b") .strip [.text ['x'], .parameterExpansion ()] () ()
    [.ofPiece (.splittable ['x']), .ofPiece (.splittable ['a', ':', 'b'])] rfl).1.trans rfl

end Fixture

end Seahaven.Shell
