import Seahaven.Shell.Pattern

/-!
# What an exact match matches

`Pattern::exactly_matches` searches a value for the translated pattern between `^` and `$`, with
the flags under which the anchors hold at the ends of every line.

1. `Documented` says how the engine reads the texts of the grammar. What it makes of the text of
   a bracket expression, and which texts are too large for it, are parameters.
2. A match is found where a run of whole lines of the value is in the language of the pattern
   (`exactlyMatches_true`), so a value is matched as a whole exactly where every such run that is
   in the language comes with the whole value (`exactlyMatches_iff`).
-/

namespace Seahaven.Shell

open Anchors

/-! ## What the engine documents -/

/-- A piece of a pattern, or an anchor. -/
inductive Part
  | piece (p : Piece)
  | bol
  | eol

def Part.text : Part → List Char
  | .piece p => p.text
  | .bol => ['^']
  | .eol => ['$']

def Part.WellFormed : Part → Prop
  | .piece p => p.WellFormed
  | _ => True

def flags (multiline : Bool) : List Char :=
  if multiline then ['(', '?', 'm', 's', ')'] else []

def newline (multiline : Bool) : Option Char := if multiline then some '\n' else none

/-- What `.` reads. -/
def dot (multiline : Bool) (c : Char) : Bool := multiline || c != '\n'

abbrev Sets := List Char → Option (Char → Bool)

/-- What a piece reads. -/
def Piece.item (sets : Sets) (multiline : Bool) : Piece → Item Char
  | .char c => .one (· == c)
  | .any => .one (dot multiline)
  | .star => .many (dot multiline)
  | .set invert ms => .one ((sets (Piece.text (.set invert ms))).getD fun _ => false)
  | .never => .never

def Part.node (sets : Sets) (multiline : Bool) : Part → Node Char
  | .piece p => .item (p.item sets multiline)
  | .bol => .bol
  | .eol => .eol

def Part.Readable (sets : Sets) : Part → Prop
  | .piece (.set invert ms) => (sets (Piece.text (.set invert ms))).isSome
  | _ => True

def partsText (multiline : Bool) (parts : List Part) : List Char :=
  flags multiline ++ parts.flatMap Part.text

/-- How the engine reads the texts of the grammar: it compiles what it can read and what is not
too large, and finds what matches somewhere in a value. -/
structure Documented (E : Engine) (sets : Sets) (tooLarge : List Char → Bool) : Prop where
  compiles : ∀ parts multiline, (∀ p ∈ parts, p.WellFormed) →
    ((∃ re, E.build false (partsText multiline parts) = .ok re) ↔
      (∀ p ∈ parts, p.Readable sets) ∧ tooLarge (partsText multiline parts) = false)
  finds : ∀ parts multiline re, (∀ p ∈ parts, p.WellFormed) →
    E.build false (partsText multiline parts) = .ok re →
    ∀ value, E.isMatch re value = .ok true ↔
      search (newline multiline) (parts.map (Part.node sets multiline)) none value = true

/-! ## Matches -/

/-- The language of a pattern: `?` and `*` stand for any characters. -/
def Pattern.language (sets : Sets) (p : Pattern) (value : List Char) : Bool :=
  match pattern p.source with
  | none => false
  | some ps => accepts (ps.map (Piece.item sets true)) value

def anchored (ps : List Piece) : List Part := .bol :: (ps.map .piece ++ [.eol])

def Pattern.exactText (p : Pattern) : List Char :=
  partsText p.multiline (anchored ((pattern p.source).getD []))

theorem anchored_text (ps : List Piece) :
    (anchored ps).flatMap Part.text = '^' :: (ps.flatMap Piece.text ++ ['$']) := by
  unfold anchored
  rw [List.flatMap_cons, List.flatMap_append, List.flatMap_map]
  rfl

variable {ps : List Piece}

theorem anchored_wellFormed (h : ∀ p ∈ ps, p.WellFormed) :
    ∀ p ∈ anchored ps, p.WellFormed := by
  intro part hpart
  cases part with
  | piece p =>
    have hmem : p ∈ ps := by simpa [anchored] using hpart
    exact h p hmem
  | bol => trivial
  | eol => trivial

theorem anchored_node (sets : Sets) (multiline : Bool) (ps : List Piece) :
    (anchored ps).map (Part.node sets multiline) =
      .bol :: ((ps.map (Piece.item sets multiline)).map .item ++ [.eol]) := by
  unfold anchored
  rw [List.map_cons, List.map_append, List.map_map, List.map_map]
  rfl

variable {multiline : Bool}

section

variable {E : Engine} {sets : Sets} {tooLarge : List Char → Bool}

/-- **Any cache.** An exact match compiles the pattern between its anchors and looks for it. -/
theorem exactlyMatches_eq (cache : RegexCache E) (p : Pattern) (value : List Char) :
    (p.exactlyMatches E cache value).1 =
      match E.build p.caseInsensitive p.exactText with
      | .error e => .error (.invalidRegex e p.exactText)
      | .ok re => (E.isMatch re value).mapError .run := by
  obtain ⟨ps, hps⟩ := pattern_isSome p.source
  have htext : p.exactText = regexText ('^' :: (ps.flatMap Piece.text ++ ['$'])) p.multiline := by
    unfold Pattern.exactText partsText regexText
    rw [hps, Option.getD_some, anchored_text,
      addMissingEscapeCharsToRegex_exact (wellFormed_of_pattern hps)]
    cases p.multiline <;> rfl
  have hstr : p.toRegexStr true true = some ('^' :: (ps.flatMap Piece.text ++ ['$'])) := by
    unfold Pattern.toRegexStr patternToRegexStr
    rw [hps]
    rfl
  have hre : (p.toRegex E cache true true).1 =
      (E.build p.caseInsensitive p.exactText).mapError (.invalidRegex · p.exactText) := by
    unfold Pattern.toRegex
    rw [hstr]
    change (compileRegex E cache _).1 = _
    rw [compileRegex_eq, htext]
    rfl
  unfold Pattern.exactlyMatches
  cases htr : p.toRegex E cache true true with
  | mk r cache' =>
    rw [htr] at hre
    change r = _ at hre
    subst hre
    cases E.build p.caseInsensitive p.exactText <;> rfl

theorem readable_of_reads {p : Piece} {w : List Char}
    (h : (p.item sets multiline).Reads w) : (Part.piece p).Readable sets := by
  cases p with
  | set invert ms =>
    obtain ⟨c, -, hc⟩ := h
    change (sets (Piece.text (.set invert ms))).isSome
    cases hs : sets (Piece.text (.set invert ms)) with
    | none =>
      rw [hs] at hc
      exact absurd hc Bool.false_ne_true
    | some f => rfl
  | _ => trivial

theorem readable_of_accepts {w : List Char}
    (h : accepts (ps.map (Piece.item sets multiline)) w = true) :
    ∀ p ∈ anchored ps, p.Readable sets := by
  have hps : ∀ p ∈ ps, (Part.piece p).Readable sets := by
    induction ps generalizing w with
    | nil => simp
    | cons p ps ih =>
      obtain ⟨x, y, -, hx, hy⟩ := accepts_cons.1 h
      exact List.forall_mem_cons.2 ⟨readable_of_reads hx, ih hy⟩
  intro part hpart
  cases part with
  | piece p => exact hps p (by simpa [anchored] using hpart)
  | bol => trivial
  | eol => trivial

variable {p : Pattern}

/-- **Matches.** An exact match is found where some run of whole lines is in the language. -/
theorem exactlyMatches_true (hE : Documented E sets tooLarge) (cache : RegexCache E)
    (hcase : p.caseInsensitive = false)
    (hps : pattern p.source = some ps) (value : List Char) :
    (p.exactlyMatches E cache value).1 = .ok true ↔
      tooLarge p.exactText = false ∧ ∃ m, Lines (newline p.multiline) m value ∧
        accepts (ps.map (Piece.item sets p.multiline)) m = true := by
  have hwf := anchored_wellFormed (wellFormed_of_pattern hps)
  have htext : p.exactText = partsText p.multiline (anchored ps) := by
    unfold Pattern.exactText
    rw [hps, Option.getD_some]
  have hcomp := hE.compiles (anchored ps) p.multiline hwf
  have hfind := hE.finds (anchored ps) p.multiline
  rw [exactlyMatches_eq, hcase]
  rw [← htext] at hcomp hfind
  rw [anchored_node] at hfind
  cases hb : E.build false p.exactText with
  | error e =>
    constructor
    · intro h
      cases h
    · rintro ⟨hsmall, m, -, hacc⟩
      obtain ⟨re, hre⟩ := hcomp.2 ⟨readable_of_accepts hacc, hsmall⟩
      rw [hb] at hre
      cases hre
  | ok re =>
    have hsmall := (hcomp.1 ⟨re, hb⟩).2
    have hmatch : (Except.mapError PatternError.run (E.isMatch re value) :
        Except (PatternError E) Bool) = .ok true ↔ E.isMatch re value = .ok true := by
      cases E.isMatch re value with
      | error e => simp [Except.mapError]
      | ok b => simp [Except.mapError]
    change Except.mapError PatternError.run (E.isMatch re value) = .ok true ↔ _
    rw [hmatch, hfind re hwf hb value, search_anchored]
    exact ⟨fun h => ⟨hsmall, h⟩, fun h => h.2⟩

theorem language_eq (hps : pattern p.source = some ps)
    (value : List Char) :
    p.language sets value = accepts (ps.map (Piece.item sets true)) value := by
  unfold Pattern.language
  rw [hps]

/-- **Whole strings.** With the default options, a value is matched exactly when it is in the
language of the pattern, if and only if the expression of a value in the language is within the
engine's size and a run of whole lines in the language comes with the whole value. -/
theorem exactlyMatches_iff (hE : Documented E sets tooLarge) (cache : RegexCache E)
    (pieces : List PatternPiece) (value : List Char) :
    ((Pattern.exactlyMatches E cache { pieces } value).1 = .ok true ↔
        Pattern.language sets { pieces } value = true) ↔
      (Pattern.language sets { pieces } value = true →
        tooLarge (Pattern.exactText { pieces }) = false) ∧
      (tooLarge (Pattern.exactText { pieces }) = false →
        ∀ m, Lines (some '\n') m value → Pattern.language sets { pieces } m = true →
          Pattern.language sets { pieces } value = true) := by
  obtain ⟨ps, hps⟩ := pattern_isSome (Pattern.source { pieces })
  rw [exactlyMatches_true hE cache rfl hps, language_eq hps]
  constructor
  · intro h
    refine ⟨fun hl => (h.2 hl).1, fun hsmall m hm hl => h.1 ⟨hsmall, m, hm, ?_⟩⟩
    rwa [language_eq hps] at hl
  · rintro ⟨hfits, hlines⟩
    constructor
    · rintro ⟨hsmall, m, hm, hacc⟩
      refine hlines hsmall m hm ?_
      rwa [language_eq hps]
    · intro hl
      exact ⟨hfits hl, value, lines_self _ value, hl⟩

end

/-! ## An engine that reads no bracket expressions -/

/-- What an expression without bracket expressions is made of. -/
def decode (multiline : Bool) : List Char → Option (List (Node Char))
  | [] => some []
  | '\\' :: c :: rest => (decode multiline rest).map (.item (.one (· == c)) :: ·)
  | '.' :: '*' :: rest => (decode multiline rest).map (.item (.many (dot multiline)) :: ·)
  | '.' :: rest => (decode multiline rest).map (.item (.one (dot multiline)) :: ·)
  | '(' :: '?' :: '!' :: ')' :: rest => (decode multiline rest).map (.item .never :: ·)
  | '^' :: rest => (decode multiline rest).map (.bol :: ·)
  | '$' :: rest => (decode multiline rest).map (.eol :: ·)
  | c :: rest =>
    if regexCharNeedsEscaping c then none
    else (decode multiline rest).map (.item (.one (· == c)) :: ·)

def splitFlags : List Char → Bool × List Char
  | '(' :: '?' :: 'm' :: 's' :: ')' :: rest => (true, rest)
  | text => (false, text)

/-- Reads the flags and the expression behind them, and searches. -/
def plainEngine : Engine where
  Regex := Bool × List (Node Char)
  BuildError := Unit
  RunError := Unit
  build _ text :=
    match decode (splitFlags text).1 (splitFlags text).2 with
    | some ns => .ok ((splitFlags text).1, ns)
    | none => .error ()
  isMatch re value := .ok (search (newline re.1) re.2 none value)

variable {parts : List Part}

theorem partsText_head {c : Char} {t : List Char}
    (h : parts.flatMap Part.text = c :: t) :
    c ≠ '*' ∧ (c = '(' → ∃ t', t = '?' :: '!' :: t') := by
  cases parts with
  | nil => cases h
  | cons p parts =>
    rw [List.flatMap_cons] at h
    cases p with
    | piece p =>
      cases p with
      | char d =>
        change (if regexCharNeedsEscaping d then ['\\', d] else [d]) ++ _ = _ at h
        split_ifs at h with hd
        · cases h
          exact ⟨by decide, fun h => absurd h (by decide)⟩
        · obtain ⟨rfl, -⟩ := List.cons.inj h
          constructor <;>
          · rintro rfl
            exact absurd (by decide) hd
      | never =>
        cases h
        exact ⟨by decide, fun _ => ⟨_, rfl⟩⟩
      | _ =>
        cases h
        exact ⟨by decide, fun h => absurd h (by decide)⟩
    | _ =>
      cases h
      exact ⟨by decide, fun h => absurd h (by decide)⟩

theorem decode_char {c : Char} (hc : ¬ regexCharNeedsEscaping c = true)
    (rest : List Char) :
    decode multiline (c :: rest) =
      (decode multiline rest).map (.item (.one (· == c)) :: ·) := by
  rw [decode.eq_def]
  split
  next h => cases h
  next h => exact absurd (by cases h; decide) hc
  next h => exact absurd (by cases h; decide) hc
  next h => exact absurd (by cases h; decide) hc
  next h => exact absurd (by cases h; decide) hc
  next h => exact absurd (by cases h; decide) hc
  next h => exact absurd (by cases h; decide) hc
  next d rest' _ _ _ _ _ _ h =>
    obtain ⟨rfl, rfl⟩ := List.cons.inj h
    rw [if_neg hc]

abbrev noSets : Sets := fun _ => none

theorem decode_part {p : Part} (hp : p.Readable noSets) {rest : List Char}
    (hrest : ∀ t, rest ≠ '*' :: t) :
    decode multiline (p.text ++ rest) =
      (decode multiline rest).map (p.node noSets multiline :: ·) := by
  cases p with
  | bol => rfl
  | eol => rfl
  | piece p =>
    cases p with
    | char c =>
      change decode multiline ((if regexCharNeedsEscaping c then ['\\', c] else [c]) ++ rest) = _
      split_ifs with hc
      · rfl
      · exact decode_char hc rest
    | any =>
      change decode multiline ('.' :: rest) = _
      cases rest with
      | nil => rfl
      | cons d rest =>
        have hd : d ≠ '*' := fun h => hrest rest (by rw [h])
        exact decode.eq_4 multiline (d :: rest) fun t h => hd (List.cons.inj h).1
    | star => rfl
    | never => rfl
    | set invert ms => exact absurd hp Bool.false_ne_true

theorem decode_set {p : Part} (hp : ¬ p.Readable noSets) (rest : List Char) :
    decode multiline (p.text ++ rest) = none := by
  cases p with
  | bol => exact absurd trivial hp
  | eol => exact absurd trivial hp
  | piece p =>
    cases p with
    | set invert ms => rfl
    | _ => exact absurd trivial hp

theorem decode_text (h : ∀ p ∈ parts, p.Readable noSets) :
    decode multiline (parts.flatMap Part.text) =
      some (parts.map (Part.node noSets multiline)) := by
  induction parts with
  | nil => rfl
  | cons p parts ih =>
    obtain ⟨hp, hparts⟩ := List.forall_mem_cons.1 h
    rw [List.flatMap_cons, decode_part hp (fun _ h => (partsText_head h).1 rfl), ih hparts]
    rfl

theorem decode_text_none (h : ¬ ∀ p ∈ parts, p.Readable noSets) :
    decode multiline (parts.flatMap Part.text) = none := by
  induction parts with
  | nil => exact absurd (by simp) h
  | cons p parts ih =>
    rw [List.flatMap_cons]
    by_cases hp : p.Readable noSets
    · rw [decode_part hp (fun _ h => (partsText_head h).1 rfl),
        ih fun hparts => h (List.forall_mem_cons.2 ⟨hp, hparts⟩)]
      rfl
    · exact decode_set hp _

theorem splitFlags_partsText (multiline : Bool) (parts : List Part) :
    splitFlags (partsText multiline parts) = (multiline, parts.flatMap Part.text) := by
  cases multiline with
  | true => rfl
  | false =>
    change splitFlags (parts.flatMap Part.text) = _
    unfold splitFlags
    split
    next rest h =>
      obtain ⟨t, ht⟩ := (partsText_head h).2 rfl
      cases ht
    next => rfl

theorem plainEngine_build (multiline : Bool) (parts : List Part) :
    plainEngine.build false (partsText multiline parts) =
      match decode multiline (parts.flatMap Part.text) with
      | some ns => .ok (multiline, ns)
      | none => .error () := by
  unfold plainEngine
  dsimp only
  rw [splitFlags_partsText]

theorem plainEngine_documented : Documented plainEngine noSets fun _ => false where
  compiles parts multiline _ := by
    rw [plainEngine_build]
    by_cases h : ∀ p ∈ parts, p.Readable noSets
    · rw [decode_text h]
      exact ⟨fun _ => ⟨h, rfl⟩, fun _ => ⟨_, rfl⟩⟩
    · rw [decode_text_none h]
      constructor
      · rintro ⟨re, hre⟩
        cases hre
      · exact fun hr => absurd hr.1 h
  finds parts multiline re _ hre value := by
    rw [plainEngine_build] at hre
    by_cases h : ∀ p ∈ parts, p.Readable noSets
    · rw [decode_text h] at hre
      obtain rfl := Except.ok.inj hre
      change Except.ok _ = Except.ok true ↔ _
      rw [Except.ok.injEq]
    · rw [decode_text_none h] at hre
      cases hre

/-- The pattern `a` matches the value of two lines `a` and `b`, which is not in its language. -/
theorem line_matched : (Pattern.exactlyMatches plainEngine (.empty _) { pieces := [.pattern ['a']] }
      ['a', '\n', 'b']).1 = .ok true ∧
    Pattern.language noSets { pieces := [.pattern ['a']] } ['a', '\n', 'b'] = false :=
  ⟨rfl, rfl⟩

/-- The pattern `a*` matches the same value as a whole. -/
theorem whole_matched :
    (Pattern.exactlyMatches plainEngine (.empty _) { pieces := [.pattern ['a', '*']] }
      ['a', '\n', 'b']).1 = .ok true ↔
    Pattern.language noSets { pieces := [.pattern ['a', '*']] } ['a', '\n', 'b'] = true :=
  (exactlyMatches_iff plainEngine_documented (.empty _) [.pattern ['a', '*']]
    ['a', '\n', 'b']).2 ⟨fun _ => rfl, fun _ _ _ _ => by decide⟩

end Seahaven.Shell
