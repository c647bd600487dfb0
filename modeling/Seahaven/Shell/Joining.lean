import Seahaven.Lib.Joins
import Seahaven.Shell.Parameter

/-!
# How a word is joined to a text

A word that becomes one text may have the elements of arrays among its pieces, and those are joined.
What is put between them is chosen once for the whole word, by its last piece; only the star forms
between double quotes are joined where they stand.

1. `piecesToStr`: the text of a word that is read.
2. `ScalarPart`, `meaning`: the words of literals, scalars and elements, and the texts they stand
   for.
3. `charsOf_coalesced`: the text by its segments.
4. `joins_iff`: when the text is the one the word stands for.
-/

namespace Seahaven.Shell

open Seahaven.Parser Joins

/-- `basic_expand_to_str`, of a word that is read. -/
def piecesToStr {P A : Type} (X : Expander P A) (h : UnquotedBackslashHandling)
    (pieces : List (WordPiece P A)) : Op X.State X.Error (List Char) := do
  let es ← expandWordPieces X h pieces
  Op.read fun s => .ok (fieldsToString (X.ifs s) (coalesceExpansions es))

/-! ## Words of literals, scalars and elements -/

def IsScalar : Parameter → Prop
  | .positional _ | .named _ => True
  | .special s => ∀ star, s ≠ .allPositionalParameters star
  | .namedWithIndex _ _ | .namedWithAllIndices _ _ => False

/-- A parameter that is all the elements of something. -/
inductive Elements
  | positional
  | array (name : List Char)
  deriving DecidableEq

/-- `$*`, `$@`, `${a[*]}` and `${a[@]}`. -/
def Elements.parameter (star : Bool) : Elements → Parameter
  | positional => .special (.allPositionalParameters star)
  | array name => .namedWithAllIndices name star

/-- A piece that stands between double quotes or outside quotes. -/
inductive ScalarPiece
  | literal (s : List Char)
  | escaped (c : Char)
  | scalar (p : { p : Parameter // IsScalar p })
  | elements (source : Elements) (star : Bool)

/-- A part of a word. -/
inductive ScalarPart
  | piece (p : ScalarPiece)
  | singleQuoted (s : List Char)
  | doubleQuoted (pieces : List ScalarPiece)

variable {ω A : Type}

def ScalarPiece.toWordPiece : ScalarPiece → WordPiece ParameterExpr A
  | literal s => .text s
  | escaped c => .escapeSequence ['\\', c]
  | scalar p => .parameterExpansion (.parameter p.1 false)
  | elements source star => .parameterExpansion (.parameter (source.parameter star) false)

def ScalarPart.toWordPiece : ScalarPart → WordPiece ParameterExpr A
  | piece p => p.toWordPiece
  | singleQuoted s => .singleQuotedText s
  | doubleQuoted pieces => .doubleQuotedSequence (pieces.map ScalarPiece.toWordPiece)

/-! ## What they stand for -/

section

variable (sh : ExpandingShell ω)

def noText (p : Parameter) : Except ExpansionError (List Char) :=
  (undefinedExpansion sh p false).map fun _ => []

/-- The text of a scalar. -/
def scalarText (p : Parameter) : Except ExpansionError (List Char) :=
  match p with
  | .positional 0 => .ok (sh.shellName.getD [])
  | .positional (n + 1) => (sh.args[n]?.map .ok).getD (noText sh p)
  | .named name =>
    if !validVariableName name then .error (.badSubstitution name)
    else
      (((sh.env.get name).bind fun r => r.2.value.tryGetStr sh.getters).map .ok).getD (noText sh p)
  | .special s => .ok (charsOf (expandSpecialParameter sh s).fields.flatten)
  | _ => .ok []

def Elements.texts : Elements → List (List Char)
  | positional => sh.args
  | array name => sh.elementsOf name

/-- The texts of a piece, of which there may be any number if it is all the elements of
something. -/
def ScalarPiece.texts : ScalarPiece → Except ExpansionError (List (List Char))
  | literal s => .ok [s]
  | escaped c => .ok [[c]]
  | scalar p => (scalarText sh p.1).map fun s => [s]
  | elements source _ => .ok (source.texts sh)

/-- The value of `IFS`, if it is set. -/
def ifsValue : Option (List Char) :=
  (sh.env.get ['I', 'F', 'S']).bind fun r => r.2.value.tryGetStr sh.getters

/-- The first character of `IFS`, a space if it is unset, nothing if it is empty. -/
def starJoiner : List Char :=
  match ifsValue sh with
  | none => [' ']
  | some value => value.take 1

def ScalarPiece.joiner : ScalarPiece → List Char
  | elements _ true => starJoiner sh
  | _ => [' ']

def ScalarPiece.meaning (p : ScalarPiece) : Except ExpansionError (List Char) :=
  (p.texts sh).map (List.intercalate (p.joiner sh))

def ScalarPart.meaning : ScalarPart → Except ExpansionError (List Char)
  | piece p => p.meaning sh
  | singleQuoted s => .ok s
  | doubleQuoted pieces => (pieces.mapM (ScalarPiece.meaning sh)).map List.flatten

def wordMeaning (word : List ScalarPart) : Except ExpansionError (List Char) :=
  (word.mapM (ScalarPart.meaning sh)).map List.flatten

/-! ## The condition -/

/-- The first character of `IFS`, or a space. -/
def codeJoiner : Char := ifsFirstChar sh.ifs

/-- Whether a part that ends a word has the fields of the word joined as those of a star form. -/
def ScalarPart.concatenates : ScalarPart → Bool
  | piece (.elements _ star) => star
  | doubleQuoted _ => false
  | _ => true

def wordJoiner (word : List ScalarPart) : Char :=
  if (word.getLast?.map ScalarPart.concatenates).getD true then codeJoiner sh else ' '

/-- What is put between the texts of a piece that stands between double quotes, in a word whose
fields are joined with `c`. -/
def ScalarPiece.quotedJoiner (c : Char) : ScalarPiece → Char
  | elements _ false => c
  | _ => codeJoiner sh

/-- Two elements or more are joined as they should be where `c` is put between them. -/
def ScalarPiece.Joins (c : Char) : ScalarPiece → Prop
  | elements source star => 2 ≤ (source.texts sh).length →
    (if star then starJoiner sh else [' ']) = [c]
  | _ => True

/-- The pieces of a part are joined as they should be, in a word whose fields are joined with
`c`. -/
def ScalarPart.Joins (c : Char) : ScalarPart → Prop
  | piece p => p.Joins sh c
  | singleQuoted _ => True
  | doubleQuoted pieces => ∀ p ∈ pieces, p.Joins sh (p.quotedJoiner sh c)

def ScalarPiece.Fails (p : ScalarPiece) : Prop := ∃ e, p.texts sh = .error e

def ScalarPart.Fails : ScalarPart → Prop
  | piece p => p.Fails sh
  | singleQuoted _ => False
  | doubleQuoted pieces => ∃ p ∈ pieces, p.Fails sh

/-! ## Segments -/

theorem ScalarPiece.joiner_length (p : ScalarPiece) : (p.joiner sh).length ≤ 1 := by
  cases p with
  | elements source star =>
    cases star with
    | false => exact Nat.le_refl _
    | true =>
      show (starJoiner sh).length ≤ 1
      unfold starJoiner
      split
      · exact Nat.le_refl _
      · exact List.length_take_le _ _
  | _ => exact Nat.le_refl _

/-- Texts that are joined, what they are joined with where the fields of the word are joined with a
character, and what they should be joined with. -/
structure Joined where
  texts : List (List Char)
  coded : Char → Char
  meant : List Char
  meant_length : meant.length ≤ 1

def ScalarPart.segments : ScalarPart → Except ExpansionError (List Joined)
  | piece p => (p.texts sh).map fun texts => [⟨texts, id, p.joiner sh, p.joiner_length sh⟩]
  | singleQuoted s => .ok [⟨[s], id, [' '], Nat.le_refl _⟩]
  | doubleQuoted pieces => pieces.mapM fun p =>
    (p.texts sh).map fun texts =>
      ⟨texts, fun c => p.quotedJoiner sh c, p.joiner sh, p.joiner_length sh⟩

def wordSegments (word : List ScalarPart) : Except ExpansionError (List Joined) :=
  (word.mapM (ScalarPart.segments sh)).map List.flatten

end

def Joined.codedText (c : Char) (g : Joined) : List Char := List.intercalate [g.coded c] g.texts

def Joined.meantText (g : Joined) : List Char := List.intercalate g.meant g.texts

variable {sh : ExpandingShell ω}

/-! ### Running one after another -/

/-- A computation fails as `m` does, or answers what `R` relates to what `m` answers. It leaves the
shell as it is. -/
def Answers {α β : Type} (sh : ExpandingShell ω) (m : Except ExpansionError α)
    (x : Op (ExpandingShell ω) ExpansionError β) (R : α → β → Prop) : Prop :=
  match m with
  | .error e => x sh = (.error e, sh)
  | .ok a => ∃ b, x sh = (.ok b, sh) ∧ R a b

theorem Answers.bind {α β γ δ : Type} {m : Except ExpansionError α}
    {x : Op (ExpandingShell ω) ExpansionError β} {R : α → β → Prop}
    {f : α → Except ExpansionError γ} {g : β → Op (ExpandingShell ω) ExpansionError δ}
    {S : γ → δ → Prop} (h : Answers sh m x R)
    (hnext : ∀ a b, R a b → Answers sh (f a) (g b) S) : Answers sh (m >>= f) (x >>= g) S := by
  cases m with
  | error e =>
    have hx : x sh = (.error e, sh) := h
    show (x >>= g) sh = (.error e, sh)
    exact Op.bind_error hx
  | ok a =>
    obtain ⟨b, hx, hR⟩ := h
    have hg := hnext a b hR
    have hbind : (x >>= g) sh = g b sh := Op.bind_ok hx
    show Answers sh (f a) (x >>= g) S
    unfold Answers at hg ⊢
    rwa [hbind]

theorem Answers.map {α β γ : Type} {m : Except ExpansionError α}
    {x : Op (ExpandingShell ω) ExpansionError β} {R : α → β → Prop} {f : α → γ} {S : γ → β → Prop}
    (h : Answers sh m x R) (hnext : ∀ a b, R a b → S (f a) b) : Answers sh (m.map f) x S := by
  cases m with
  | error e => exact h
  | ok a =>
    obtain ⟨b, hx, hR⟩ := h
    exact ⟨b, hx, hnext a b hR⟩

theorem Answers.imp {α β : Type} {m : Except ExpansionError α}
    {x : Op (ExpandingShell ω) ExpansionError β} {R S : α → β → Prop} (h : Answers sh m x R)
    (himp : ∀ a b, R a b → S a b) : Answers sh m x S := by
  cases m with
  | error e => exact h
  | ok a =>
    obtain ⟨b, hx, hR⟩ := h
    exact ⟨b, hx, himp a b hR⟩

theorem Answers.andThen {α β γ : Type} {m : Except ExpansionError α}
    {x : Op (ExpandingShell ω) ExpansionError β} {R : α → β → Prop} {g : β → γ} {S : α → γ → Prop}
    (h : Answers sh m x R) (hnext : ∀ a b, R a b → S a (g b)) :
    Answers sh m (x >>= fun b => pure (g b)) S := by
  cases m with
  | error e => exact Op.bind_error h
  | ok a =>
    obtain ⟨b, hx, hR⟩ := h
    exact ⟨g b, Op.bind_ok hx, hnext a b hR⟩

theorem Answers.cons {α β γ δ : Type} {x : Op (ExpandingShell ω) ExpansionError γ}
    {R : α → γ → Prop} {f : β → Except ExpansionError α} {b : β} {bs : List β}
    {g : γ → Op (ExpandingShell ω) ExpansionError δ} {S : α → List α → δ → Prop}
    {T : List α → δ → Prop} (h : Answers sh (f b) x R)
    (hrest : ∀ a c, R a c → Answers sh (bs.mapM f) (g c) (S a))
    (hcons : ∀ a as d, S a as d → T (a :: as) d) :
    Answers sh ((b :: bs).mapM f) (x >>= g) T := by
  rw [List.mapM_cons]
  refine Answers.bind h fun a c hR => ?_
  rw [bind_pure_comp]
  exact Answers.map (hrest a c hR) (hcons a)

/-! ### Pieces -/

def joinedFields (c : Char) (fields : List WordField) : List Char :=
  List.intercalate [c] (fields.map charsOf)

/-- An expansion has a field for each of the texts. -/
structure Holds (concatenate : Bool) (texts : List (List Char)) (e : Expansion) : Prop where
  fields : e.fields.map charsOf = texts
  concatenate : e.concatenate = concatenate

theorem Holds.ofText {s : List Char} : Holds true [s] (.ofText s) :=
  ⟨by simp [Expansion.ofText, Expansion.ofPiece, charsOf, ExpansionPiece.asStr], rfl⟩

theorem Holds.ofElements {texts : List (List Char)} {star : Bool} :
    Holds star texts (.ofElements texts star) := by
  refine ⟨?_, rfl⟩
  show (texts.map fun value => [ExpansionPiece.splittable value]).map charsOf = texts
  rw [List.map_map]
  refine (List.map_congr_left fun value _ => ?_).trans (List.map_id texts)
  simp [charsOf, ExpansionPiece.asStr]

theorem Answers.read_error {α β : Type} {e : ExpansionError}
    {f : ExpandingShell ω → Except ExpansionError β} {R : α → β → Prop} (h : f sh = .error e) :
    Answers sh (.error e) (Op.read f) R := by
  show (f sh, sh) = (.error e, sh)
  rw [h]

theorem Answers.read_ok {α β : Type} {a : α} {b : β}
    {f : ExpandingShell ω → Except ExpansionError β} {R : α → β → Prop} (h : f sh = .ok b)
    (hR : R a b) : Answers sh (.ok a) (Op.read f) R := by
  refine ⟨b, ?_, hR⟩
  show (f sh, sh) = (.ok b, sh)
  rw [h]

theorem answers_undefined (p : Parameter) {f : ExpandingShell ω → Except ExpansionError Expansion}
    (hf : f sh = undefinedExpansion sh p false) :
    Answers sh ((noText sh p).map fun s => [s]) (Op.read f) (Holds true) := by
  unfold noText
  unfold undefinedExpansion at hf ⊢
  split_ifs at hf ⊢ with hallow
  · exact Answers.read_ok (a := [[]]) hf ⟨rfl, rfl⟩
  · exact Answers.read_error hf

theorem expandSpecialParameter_scalar {s : SpecialParameter} (hs : IsScalar (.special s)) :
    ∃ t, expandSpecialParameter sh s = .ofText t := by
  cases s with
  | allPositionalParameters star => exact absurd rfl (hs star)
  | _ => exact ⟨_, rfl⟩

theorem answers_scalar [Casing] (x : ParameterWords ω) {p : Parameter} (hp : IsScalar p) :
    Answers sh ((scalarText sh p).map fun s => [s]) (x.steps.expandParameterWithoutIndirect p false)
      (Holds true) := by
  match p, hp with
  | .positional 0, _ => exact Answers.read_ok rfl Holds.ofText
  | .positional (n + 1), _ =>
    show Answers sh (((sh.args[n]?.map .ok).getD (noText sh _)).map fun s => [s]) (Op.read _) _
    cases hn : sh.args[n]? with
    | none => exact answers_undefined _ (by simp only [hn])
    | some value => exact Answers.read_ok (by simp only [hn]) Holds.ofText
  | .named name, _ =>
    show Answers sh (Except.map (fun s => [s]) (if !validVariableName name then _ else _))
      (Op.read fun sh => expandNamed sh name false) _
    unfold expandNamed
    cases hname : validVariableName name with
    | false => exact Answers.read_error (by simp only [Bool.not_false, if_true])
    | true =>
      cases hget : sh.env.get name with
      | none => exact answers_undefined _ (by simp [hget])
      | some r =>
        cases hvalue : r.2.value.tryGetStr sh.getters with
        | none =>
          simp only [Option.bind_some, hvalue, Option.map_none, Option.getD_none]
          exact answers_undefined _ (by simp [hget, hvalue])
        | some value =>
          simp only [Option.bind_some, hvalue, Option.map_some, Option.getD_some]
          exact Answers.read_ok (by simp [hget, hvalue]) Holds.ofText
  | .special s, hp =>
    obtain ⟨t, ht⟩ : ∃ t, expandSpecialParameter sh s = .ofText t :=
      expandSpecialParameter_scalar hp
    show Answers sh (.ok [charsOf (expandSpecialParameter sh s).fields.flatten]) (Op.read _) _
    refine Answers.read_ok rfl ?_
    rw [ht]
    simpa [Expansion.ofText, Expansion.ofPiece, charsOf, ExpansionPiece.asStr] using
      Holds.ofText (s := t)

/-! ### Fields -/

theorem joinedFields_joinFields (c : Char) (acc fields : List WordField) :
    joinedFields c (joinFields acc fields) = joinedFields c acc ++ joinedFields c fields := by
  cases fields with
  | nil => simp [joinFields, joinedFields]
  | cons field fields =>
    cases acc using List.reverseRecOn with
    | nil => simp [joinFields, joinedFields]
    | append_singleton acc last _ =>
      simp only [joinFields, joinedFields, List.getLast?_concat, List.dropLast_concat,
        List.append_assoc, List.singleton_append, List.map_append, List.map_cons, charsOf_append,
        List.map_nil]
      exact intercalate_append _ _ _ _ _

theorem charsOf_makeUnsplittable (field : WordField) :
    charsOf (field.map ExpansionPiece.makeUnsplittable) = charsOf field := by
  unfold charsOf
  rw [List.flatMap_map]
  refine List.flatMap_congr fun piece _ => ?_
  cases piece <;> rfl

theorem charsOf_intercalate (c : Char) (fields : List WordField) :
    charsOf (List.intercalate [.unsplittable [c]] fields) = joinedFields c fields := by
  induction fields with
  | nil => rfl
  | cons field fields ih =>
    cases fields with
    | nil => simp [joinedFields]
    | cons field' fields =>
      rw [List.intercalate_cons_cons, charsOf_append, charsOf_append, ih]
      simp [joinedFields, List.intercalate_cons_cons, charsOf, ExpansionPiece.asStr]

theorem joinedFields_quotedFields {concatenate : Bool} {texts : List (List Char)} {e : Expansion}
    (h : Holds concatenate texts e) (c joiner : Char) :
    joinedFields c (quotedFields joiner e) =
      List.intercalate [if concatenate then joiner else c] texts := by
  have hfields : (e.fields.map (List.map ExpansionPiece.makeUnsplittable)).map charsOf = texts := by
    rw [List.map_map, ← h.fields]
    exact List.map_congr_left fun field _ => charsOf_makeUnsplittable field
  unfold quotedFields
  rw [h.concatenate]
  cases concatenate with
  | false => simp only [Bool.false_eq_true, if_false, joinedFields, hfields]
  | true =>
    simp only [if_true]
    have hjoined := charsOf_intercalate joiner
      (e.fields.map (List.map ExpansionPiece.makeUnsplittable))
    unfold joinedFields at hjoined ⊢
    rw [hfields] at hjoined
    split_ifs with hnil
    · rw [hnil] at hjoined
      simpa [charsOf, ExpansionPiece.asStr] using hjoined
    · simpa using hjoined

/-! ### Words -/

def ScalarPiece.concatenates : ScalarPiece → Bool
  | elements _ star => star
  | _ => true

section

variable [Casing] (x : ParameterWords ω) (w : PieceWords ω A)

theorem answers_piece (quoted : Bool) (p : ScalarPiece) :
    Answers sh (p.texts sh) (expandWordPiece (shellExpander x w) .strip quoted p.toWordPiece)
      (Holds p.concatenates) := by
  cases p with
  | literal s => exact ⟨_, rfl, Holds.ofText⟩
  | escaped c => cases quoted <;> exact ⟨_, rfl, ⟨rfl, rfl⟩⟩
  | scalar p =>
    show Answers sh _ (x.steps.expandParameterInternal p.1 false false) _
    rw [expandParameterInternal_direct]
    exact answers_scalar x p.2
  | elements source star =>
    cases source with
    | positional => exact ⟨_, rfl, Holds.ofElements⟩
    | array name => exact ⟨_, rfl, Holds.ofElements⟩

theorem answers_doubleQuoted (pieces : List ScalarPiece) (fields : List WordField) :
    Answers sh (ScalarPart.segments sh (.doubleQuoted pieces))
      (processDoubleQuotedPieces (shellExpander x w) .strip (codeJoiner sh) fields
        (pieces.map ScalarPiece.toWordPiece))
      (fun segments fields' => ∀ c, joinedFields c fields' =
        joinedFields c fields ++ segments.flatMap (Joined.codedText c)) := by
  induction pieces generalizing fields with
  | nil => exact ⟨fields, rfl, fun c => by simp⟩
  | cons p pieces ih =>
    refine Answers.cons
      (R := fun segment e => ∀ c, joinedFields c (quotedFields (codeJoiner sh) e) =
        segment.codedText c)
      (S := fun segment segments fields' => ∀ c, joinedFields c fields' =
        joinedFields c fields ++
          (segment.codedText c ++ List.flatMap (Joined.codedText c) segments))
      (Answers.map (answers_piece x w true p) fun texts e he c => ?_)
      (fun segment e he => ?_) (fun segment segments fields' h => ?_)
    · rw [joinedFields_quotedFields he]
      show _ = List.intercalate [p.quotedJoiner sh c] texts
      cases p with
      | elements source star => cases star <;> rfl
      | _ => rfl
    · refine Answers.imp (ih (joinFields fields (quotedFields (codeJoiner sh) e))) ?_
      intro segments fields' h c
      rw [h c, joinedFields_joinFields, he c, List.append_assoc]
    · simpa [List.flatMap_cons] using h

/-- A part of a word expands to fields that are joined as its segments are. -/
structure HoldsPart (part : ScalarPart) (segments : List Joined) (e : Expansion) : Prop where
  text : ∀ c, joinedFields c e.fields = segments.flatMap (Joined.codedText c)
  concatenate : e.concatenate = part.concatenates

theorem answers_part (part : ScalarPart) :
    Answers sh (part.segments sh)
      (expandWordPiece (shellExpander x w) .strip false part.toWordPiece) (HoldsPart part) := by
  cases part with
  | piece p =>
    refine Answers.map (answers_piece x w false p) fun texts e he => ⟨fun c => ?_, ?_⟩
    · show List.intercalate [c] (e.fields.map charsOf) = _
      rw [he.fields]
      simp [Joined.codedText]
    · rw [he.concatenate]
      cases p <;> rfl
  | singleQuoted s =>
    refine ⟨_, rfl, ⟨fun c => ?_, rfl⟩⟩
    simp [joinedFields, Expansion.ofPiece, charsOf, ExpansionPiece.asStr, Joined.codedText]
  | doubleQuoted pieces =>
    cases pieces with
    | nil => exact ⟨_, rfl, ⟨fun c => rfl, rfl⟩⟩
    | cons p pieces =>
    refine Answers.bind (m := .ok (codeJoiner sh)) (R := fun _ joiner => joiner = codeJoiner sh)
      (f := fun _ => ScalarPart.segments sh (.doubleQuoted (p :: pieces))) ⟨_, rfl, rfl⟩ ?_
    rintro _ _ rfl
    refine Answers.andThen (answers_doubleQuoted x w (p :: pieces) []) fun segments fields h => ?_
    refine ⟨fun c => ?_, rfl⟩
    have htext := h c
    rw [show joinedFields c [] = [] from rfl, List.nil_append] at htext
    exact htext

/-- The expansions of the parts of a word. -/
structure HoldsWord (word : List ScalarPart) (segments : List (List Joined))
    (es : List Expansion) : Prop where
  text : ∀ c, (es.flatMap fun e => joinedFields c e.fields) =
    segments.flatten.flatMap (Joined.codedText c)
  concatenates : es.map Expansion.concatenate = word.map ScalarPart.concatenates

theorem answers_word (word : List ScalarPart) :
    Answers sh (word.mapM (ScalarPart.segments sh))
      (expandWordPieces (shellExpander x w) .strip (word.map ScalarPart.toWordPiece))
      (HoldsWord word) := by
  induction word with
  | nil => exact ⟨[], rfl, ⟨fun c => rfl, rfl⟩⟩
  | cons part word ih =>
    refine Answers.cons (S := fun segments rest es => ∃ e es', es = e :: es' ∧
        HoldsPart part segments e ∧ HoldsWord word rest es') (answers_part x w part)
      (fun segments e he => Answers.andThen ih fun rest es hes => ⟨e, es, rfl, he, hes⟩) ?_
    rintro segments rest es ⟨e, es', rfl, he, hes⟩
    refine ⟨fun c => ?_, ?_⟩
    · rw [List.flatMap_cons, he.text c, hes.text c, List.flatten_cons, List.flatMap_append]
    · rw [List.map_cons, List.map_cons, he.concatenate, hes.concatenates]

end

/-! ### The whole word -/

theorem joinedFields_coalesce (c : Char) (es : List Expansion) :
    joinedFields c (coalesceExpansions es).fields =
      es.flatMap fun e => joinedFields c e.fields := by
  have hfold : ∀ acc : Expansion, joinedFields c (es.foldl (fun acc e =>
      { acc with
        fields := joinFields acc.fields e.fields
        concatenate := e.concatenate
        fromArray := e.fromArray }) acc).fields =
      joinedFields c acc.fields ++ es.flatMap fun e => joinedFields c e.fields := by
    induction es with
    | nil => simp
    | cons e es ih =>
      intro acc
      rw [List.foldl_cons, ih, joinedFields_joinFields, List.flatMap_cons, List.append_assoc]
  exact hfold {}

theorem concatenate_coalesce (es : List Expansion) :
    (coalesceExpansions es).concatenate = ((es.map Expansion.concatenate).getLast?).getD true := by
  cases es using List.reverseRecOn with
  | nil => rfl
  | append_singleton es e _ =>
    unfold coalesceExpansions
    rw [List.foldl_append, List.map_append]
    simp

theorem piecesToStr_eq [Casing] (x : ParameterWords ω) (w : PieceWords ω A)
    (word : List ScalarPart) :
    (piecesToStr (shellExpander x w) .strip (word.map ScalarPart.toWordPiece) sh).1 =
      (wordSegments sh word).map (List.flatMap (Joined.codedText (wordJoiner sh word))) := by
  have hword : Answers sh _ _ _ := answers_word x w word
  unfold piecesToStr wordSegments
  cases hsegments : word.mapM (ScalarPart.segments sh) with
  | error e =>
    rw [hsegments] at hword
    rw [Op.bind_error hword]
    rfl
  | ok segments =>
    rw [hsegments] at hword
    obtain ⟨es, hrun, hes⟩ := hword
    rw [Op.bind_ok hrun]
    have hjoiner : (if (coalesceExpansions es).concatenate then ifsFirstChar sh.ifs else ' ') =
        wordJoiner sh word := by
      rw [concatenate_coalesce, hes.concatenates, List.getLast?_map]
      rfl
    show Except.ok (fieldsToString sh.ifs (coalesceExpansions es)) = _
    unfold fieldsToString
    rw [hjoiner]
    have htext := (joinedFields_coalesce (wordJoiner sh word) es).trans (hes.text _)
    exact congrArg Except.ok htext

theorem mapM_map {ε α β γ : Type} (f : α → Except ε β) (g : β → γ) (l : List α) :
    (l.mapM fun a => (f a).map g) = (l.mapM f).map (List.map g) := by
  induction l with
  | nil => rfl
  | cons a l ih =>
    rw [List.mapM_cons, List.mapM_cons, ih]
    cases f a with
    | error e => rfl
    | ok b => cases l.mapM f <;> rfl

theorem map_map {ε α β γ : Type} (m : Except ε α) (f : α → β) (g : β → γ) :
    (m.map f).map g = m.map fun a => g (f a) := by
  cases m <;> rfl

theorem ScalarPart.meaning_eq (part : ScalarPart) :
    part.meaning sh = (part.segments sh).map (List.flatMap Joined.meantText) := by
  cases part with
  | piece p =>
    show (p.texts sh).map _ = ((p.texts sh).map _).map _
    rw [map_map]
    simp [Joined.meantText]
  | singleQuoted s => simp [meaning, segments, Except.map, Joined.meantText]
  | doubleQuoted pieces =>
    have hpieces : (pieces.mapM fun p : ScalarPiece =>
        (p.texts sh).map (List.intercalate (p.joiner sh))) =
          (ScalarPart.segments sh (.doubleQuoted pieces)).map (List.map Joined.meantText) := by
      rw [segments, ← mapM_map]
      simp only [map_map]
      rfl
    have hmeaning : ScalarPart.meaning sh (.doubleQuoted pieces) =
        (pieces.mapM fun p : ScalarPiece =>
          (p.texts sh).map (List.intercalate (p.joiner sh))).map List.flatten := rfl
    rw [hmeaning, hpieces, map_map]
    rfl

theorem wordMeaning_eq (word : List ScalarPart) :
    wordMeaning sh word = (wordSegments sh word).map (List.flatMap Joined.meantText) := by
  unfold wordMeaning wordSegments
  have hmeaning : ScalarPart.meaning sh = fun part : ScalarPart =>
      (part.segments sh).map (List.flatMap Joined.meantText) := funext ScalarPart.meaning_eq
  rw [hmeaning, map_map, mapM_map, map_map]
  simp only [List.flatMap_def, List.map_flatten, List.flatten_flatten, List.map_map]
  rfl

/-! ### Failing and joining -/

theorem mapM_error_iff {ε α β : Type} {f : α → Except ε β} {l : List α} :
    (∃ e, l.mapM f = .error e) ↔ ∃ a ∈ l, ∃ e, f a = .error e := by
  constructor
  · rintro ⟨e, h⟩
    obtain ⟨a, ha, hfa⟩ := exists_of_mapM_error h
    exact ⟨a, ha, e, hfa⟩
  · rintro ⟨a, ha, e, hfa⟩
    cases h : l.mapM f with
    | error e' => exact ⟨e', rfl⟩
    | ok bs =>
      exfalso
      induction l generalizing bs with
      | nil => exact List.not_mem_nil ha
      | cons a' l ih =>
        rw [List.mapM_cons] at h
        obtain ⟨b, hb, hrest⟩ := Op.except_bind_eq_ok.1 h
        obtain ⟨bs', hbs, -⟩ := Op.except_bind_eq_ok.1 hrest
        rcases List.mem_cons.1 ha with rfl | ha
        · rw [hfa] at hb
          cases hb
        · exact ih ha bs' hbs

theorem mapM_ok {ε α β : Type} {f : α → Except ε β} {l : List α} {bs : List β}
    (h : l.mapM f = .ok bs) : List.Forall₂ (fun a b => f a = .ok b) l bs := by
  induction l generalizing bs with
  | nil =>
    cases h
    exact .nil
  | cons a l ih =>
    rw [List.mapM_cons] at h
    obtain ⟨b, hb, hrest⟩ := Op.except_bind_eq_ok.1 h
    obtain ⟨bs', hbs, hcons⟩ := Op.except_bind_eq_ok.1 hrest
    cases hcons
    exact .cons hb (ih hbs)

theorem forall_iff_of_forall₂ {α β : Type} {R : α → β → Prop} {p : α → Prop} {q : β → Prop}
    {l : List α} {bs : List β} (h : List.Forall₂ R l bs) (hpq : ∀ a b, R a b → (p a ↔ q b)) :
    (∀ a ∈ l, p a) ↔ ∀ b ∈ bs, q b := by
  induction h with
  | nil => simp
  | cons hab _ ih => rw [List.forall_mem_cons, List.forall_mem_cons, hpq _ _ hab, ih]

theorem ScalarPart.fails_iff (part : ScalarPart) :
    part.Fails sh ↔ ∃ e, part.segments sh = .error e := by
  have hpiece : ∀ (p : ScalarPiece) {β : Type} (f : List (List Char) → β),
      p.Fails sh ↔ ∃ e, (p.texts sh).map f = .error e := fun p β f =>
    exists_congr fun e => map_eq_error_iff.symm
  cases part with
  | piece p => exact hpiece p _
  | singleQuoted s => exact iff_of_false id nofun
  | doubleQuoted pieces =>
    refine Iff.trans ?_ mapM_error_iff.symm
    exact exists_congr fun p => and_congr_right fun _ => hpiece p _

theorem fails_iff (word : List ScalarPart) :
    (∃ part ∈ word, ScalarPart.Fails sh part) ↔ ∃ e, wordSegments sh word = .error e := by
  have hword : (∃ e, wordSegments sh word = .error e) ↔
      ∃ e, word.mapM (ScalarPart.segments sh) = .error e :=
    exists_congr fun e => map_eq_error_iff
  rw [hword, mapM_error_iff]
  exact exists_congr fun part => and_congr_right fun _ => part.fails_iff

theorem ScalarPiece.joins_iff_texts {p : ScalarPiece} {texts : List (List Char)}
    (h : p.texts sh = .ok texts) (c : Char) :
    p.Joins sh c ↔ (2 ≤ texts.length → p.joiner sh = [c]) := by
  cases p with
  | elements source star =>
    cases h
    cases star <;> exact Iff.rfl
  | scalar p =>
    obtain ⟨s, -, hs⟩ := Op.except_map_eq_ok.1 h
    subst hs
    exact iff_of_true trivial fun hlen => by simp at hlen
  | literal s =>
    cases h
    exact iff_of_true trivial fun hlen => by simp at hlen
  | escaped s =>
    cases h
    exact iff_of_true trivial fun hlen => by simp at hlen

theorem ScalarPart.joins_iff_segment {part : ScalarPart} {segments : List Joined}
    (h : part.segments sh = .ok segments) (c : Char) :
    part.Joins sh c ↔ ∀ g ∈ segments, 2 ≤ g.texts.length → g.meant = [g.coded c] := by
  cases part with
  | piece p =>
    obtain ⟨texts, htexts, hsegments⟩ := Op.except_map_eq_ok.1 h
    subst hsegments
    rw [List.forall_mem_singleton]
    exact p.joins_iff_texts htexts c
  | singleQuoted s =>
    cases h
    exact iff_of_true trivial fun g hg hlen => by simp_all
  | doubleQuoted pieces =>
    refine forall_iff_of_forall₂ (mapM_ok h) fun p g hg => ?_
    obtain ⟨texts, htexts, hsegment⟩ := Op.except_map_eq_ok.1 hg
    subst hsegment
    exact p.joins_iff_texts htexts _

theorem joins_iff_segments {word : List ScalarPart} {segments : List Joined}
    (h : wordSegments sh word = .ok segments) (c : Char) :
    (∀ part ∈ word, ScalarPart.Joins sh c part) ↔
      ∀ g ∈ segments, 2 ≤ g.texts.length → g.meant = [g.coded c] := by
  obtain ⟨lists, hlists, hflat⟩ := Op.except_map_eq_ok.1 h
  subst hflat
  rw [forall_iff_of_forall₂ (mapM_ok hlists) fun part _ hpart => part.joins_iff_segment hpart c]
  simp only [List.mem_flatten]
  exact ⟨fun hall g ⟨list, hlist, hg⟩ => hall list hlist g hg,
    fun hall list hlist g hg => hall g ⟨list, hlist, hg⟩⟩

/-- **The text of a word.** A word of literals, scalars and elements comes to the text it stands
for, or fails as it does, if and only if one of its scalars fails or, wherever there are two
elements or more, what the code puts between them is what they are to be joined with. -/
theorem joins_iff [Casing] (x : ParameterWords ω) (w : PieceWords ω A) (word : List ScalarPart)
    (sh : ExpandingShell ω) :
    (piecesToStr (shellExpander x w) .strip (word.map ScalarPart.toWordPiece) sh).1 =
        wordMeaning sh word ↔
      (∃ part ∈ word, part.Fails sh) ∨ ∀ part ∈ word, part.Joins sh (wordJoiner sh word) := by
  rw [piecesToStr_eq, wordMeaning_eq, fails_iff]
  cases hsegments : wordSegments sh word with
  | error e => exact iff_of_true rfl (.inl ⟨e, rfl⟩)
  | ok segments =>
    have hle : ∀ g ∈ segments, (Joined.meantText g).length ≤
        (Joined.codedText (wordJoiner sh word) g).length := fun g _ =>
      length_intercalate_le g.meant_length _ _
    rw [joins_iff_segments hsegments]
    show Except.ok _ = Except.ok _ ↔ _
    rw [Except.ok.injEq, flatMap_eq_iff hle]
    have hsegment : ∀ g : Joined, Joined.codedText (wordJoiner sh word) g = g.meantText ↔
        (2 ≤ g.texts.length → g.meant = [g.coded (wordJoiner sh word)]) := fun g =>
      intercalate_eq_iff g.meant_length _ _
    rw [forall₂_congr fun g _ => hsegment g]
    simp

section Fixture

/-- A shell with arguments, and with a value for `IFS`. -/
def shellWith (ifs : List Char) (args : List (List Char)) : ExpandingShell Unit where
  env :=
    { scopes := [(.global, fun name =>
        if name = ['I', 'F', 'S'] then some (ShellVariable.new (.string ifs)) else none)]
      exportVariablesOnModification := false
      entryCount := 1 }
  getters := ⟨fun _ => .unset .untyped, unset_ne_dynamic⟩
  args := args
  shellName := none
  lastExitStatus := 0
  optionFlags := []
  processId := 1
  backgroundPid := none
  treatUnsetVariablesAsError := false
  world := ()

def noWords : ParameterWords Unit where
  basicExpand _ := Op.check (.error (.other "word"))
  expandParameterWord _ _ := Op.check (.error (.other "word"))
  expandAndEval _ := Op.check (.error (.other "expression"))
  rules := ⟨true, fun _ => none⟩

def noPieces : PieceWords Unit Empty where
  expandTildeExpression _ := Op.check (.error (.other "tilde"))
  commandOutput _ := Op.check (.error (.other "command"))
  expandArithmeticExpr e := nomatch e
  expandPathnamesInField _ := Op.check (.error (.other "pathnames"))

/-- With `:` for `IFS` and the arguments `a` and `b`, the word `$@x` stands for `a bx` and comes to
`a:bx`. -/
theorem not_joins_at : (piecesToStr (@shellExpander _ asciiCasing _ noWords noPieces) .strip
        ([.piece (.elements .positional false), .piece (.literal ['x'])].map
          ScalarPart.toWordPiece) (shellWith [':'] [['a'], ['b']])).1 ≠
      wordMeaning (shellWith [':'] [['a'], ['b']])
        [.piece (.elements .positional false), .piece (.literal ['x'])] := by
  intro h
  have hcode : Except.ok ['a', ':', 'b', 'x'] = Except.ok ['a', ' ', 'b', 'x'] := h
  cases hcode

end Fixture

end Seahaven.Shell
