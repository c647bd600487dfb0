import Seahaven.Lib.Anchors
import Seahaven.Lib.Peg
import Mathlib.Tactic.Cases

/-!
# Shell patterns

`Pattern::exactly_matches`: a pattern is translated to the text of a regular expression, the text
is put between `^` and `$` and compiled with the flags `(?ms)`, and a value matches when the
expression is found in it.

1. The grammar of patterns without extended globbing, as in `Pattern::default`, and the text of
   each of its pieces. Every pattern is read to its end (`pattern_isSome`), into pieces that are
   as the grammar has them (`wellFormed_of_pattern`).
2. The cache of compiled expressions carries that each is what its key compiles to, so a match
   is the same with any cache (`exactlyMatches_eq`).
3. `add_missing_escape_chars_to_regex` finds nothing to escape in the text of a pattern
   (`regexText_exact`).
-/

namespace Seahaven.Shell

open Anchors

/-! ## Patterns -/

/-- A piece of a shell pattern. -/
inductive PatternPiece
  | pattern (s : List Char)
  | literal (s : List Char)

/-- A pattern with the values of `Pattern::default`. -/
structure Pattern where
  pieces : List PatternPiece := []
  multiline : Bool := true
  caseInsensitive : Bool := false

/-- `regex_char_is_special`, which decides what a literal piece escapes. -/
def regexCharIsSpecial (c : Char) : Bool :=
  ['\\', '^', '$', '.', '|', '?', '*', '+', '(', ')', '[', ']', '\x7b', '\x7d'].contains c

/-- `regex_char_needs_escaping`, which decides what the grammar escapes. -/
def regexCharNeedsEscaping (c : Char) : Bool :=
  ['[', ']', '(', ')', '\x7b', '\x7d', '*', '?', '.', '+', '^', '$', '|', '\\', '-'].contains c

def PatternPiece.source : PatternPiece → List Char
  | .pattern s => s
  | .literal s => s.flatMap fun c => if regexCharIsSpecial c then ['\\', c] else [c]

/-! ## The grammar -/

/-- A character of a bracket expression, as it is written in the expression. -/
inductive Single
  | escaped (c : Char)
  | openBracket
  | plain (c : Char)

def Single.char : Single → Char
  | .escaped c => c
  | .openBracket => '['
  | .plain c => c

def Single.text : Single → List Char
  | .escaped c => ['\\', c]
  | .openBracket => ['\\', '[']
  | .plain c => [c]

inductive Member
  | cls (name : List Char)
  | range (lo hi : Single)
  | single (s : Single)

def Member.text : Member → List Char
  | .cls name => '[' :: ':' :: (name ++ [':', ']'])
  | .range lo hi => lo.text ++ '-' :: hi.text
  | .single s => s.text

/-- A piece of the translated pattern. -/
inductive Piece
  | char (c : Char)
  | any
  | star
  | set (invert : Bool) (members : List Member)
  | never

def Piece.text : Piece → List Char
  | .char c => if regexCharNeedsEscaping c then ['\\', c] else [c]
  | .any => ['.']
  | .star => ['.', '*']
  | .set invert members =>
    '[' :: ((if invert then ['^'] else []) ++ (members.flatMap Member.text ++ [']']))
  | .never => ['(', '?', '!', ')']

/-- The names of `char_class`, in the order they are tried. -/
def charClasses : List (List Char) :=
  [['a', 'l', 'n', 'u', 'm'], ['a', 'l', 'p', 'h', 'a'], ['b', 'l', 'a', 'n', 'k'],
    ['c', 'n', 't', 'r', 'l'], ['d', 'i', 'g', 'i', 't'], ['g', 'r', 'a', 'p', 'h'],
    ['l', 'o', 'w', 'e', 'r'], ['p', 'r', 'i', 'n', 't'], ['p', 'u', 'n', 'c', 't'],
    ['s', 'p', 'a', 'c', 'e'], ['u', 'p', 'p', 'e', 'r'], ['x', 'd', 'i', 'g', 'i', 't']]

def charClassExpression (s : List Char) : Option (Member × List Char) :=
  charClasses.findSome? fun name =>
    let text := Member.text (.cls name)
    if text.isPrefixOf s then some (.cls name, s.drop text.length) else none

def singleCharBracketMember : List Char → Option (Single × List Char)
  | '\\' :: c :: rest => some (.escaped c, rest)
  | '[' :: rest => some (.openBracket, rest)
  | c :: rest => if c = ']' then none else some (.plain c, rest)
  | [] => none

/-- `char_range`: a range that runs backwards is read and left out. -/
def charRange (s : List Char) : Option (Option Member × List Char) :=
  match singleCharBracketMember s with
  | some (lo, '-' :: rest) =>
    match singleCharBracketMember rest with
    | some (hi, rest) => some (if lo.char ≤ hi.char then some (.range lo hi) else none, rest)
    | none => none
  | _ => none

def bracketMember (s : List Char) : Option (Option Member × List Char) :=
  match charClassExpression s with
  | some (m, rest) => some (some m, rest)
  | none =>
    match charRange s with
    | some r => some r
    | none =>
      match singleCharBracketMember s with
      | some (c, rest) => some (some (.single c), rest)
      | none => none

/-- `invert_char`, which is optional. -/
def invertChar : List Char → Bool × List Char
  | '!' :: rest => (true, rest)
  | '^' :: rest => (true, rest)
  | s => (false, s)

def bracketPiece (invert : Bool) : List Member → Piece
  | [] => if invert then .any else .never
  | m :: ms => .set invert (m :: ms)

def bracketExpression : List Char → Option (Piece × List Char)
  | '[' :: s =>
    let (invert, s) := invertChar s
    let (members, rest) := Peg.many bracketMember s.length s
    match members, rest with
    | [], _ => none
    | _ :: _, ']' :: rest => some (bracketPiece invert (members.filterMap id), rest)
    | _ :: _, _ => none
  | _ => none

/-- `pattern_piece`: an escape sequence, a bracket expression, a wildcard, or the character. -/
def patternPiece (s : List Char) : Option (Piece × List Char) :=
  match s with
  | [] => none
  | '\\' :: c :: rest => some (.char c, rest)
  | c :: rest =>
    match bracketExpression s with
    | some r => some r
    | none =>
      if c = '?' then some (.any, rest)
      else if c = '*' then some (.star, rest)
      else some (.char c, rest)

/-- `pattern`: pieces up to the end of the input. -/
def pattern (s : List Char) : Option (List Piece) :=
  match Peg.many patternPiece s.length s with
  | (pieces, []) => some pieces
  | (_, _ :: _) => none

def patternToRegexStr (s : List Char) : Option (List Char) :=
  (pattern s).map (·.flatMap Piece.text)

def Pattern.source (p : Pattern) : List Char := p.pieces.flatMap PatternPiece.source

/-! ## Compiling -/

/-- The engine of regular expressions. -/
structure Engine where
  Regex : Type
  BuildError : Type
  RunError : Type
  /-- Compiles a text, with or without regard to case. -/
  build : Bool → List Char → Except BuildError Regex
  /-- Looks for the expression in a value. -/
  isMatch : Regex → List Char → Except RunError Bool

/-- The errors of a match. -/
inductive PatternError (E : Engine)
  | pattern
  | invalidRegex (e : E.BuildError) (text : List Char)
  | run (e : E.RunError)

/-- `Pattern::to_regex_str`. -/
def Pattern.toRegexStr (p : Pattern) (strictPrefix strictSuffix : Bool) : Option (List Char) :=
  (patternToRegexStr p.source).map fun text =>
    (if strictPrefix then ['^'] else []) ++ (text ++ if strictSuffix then ['$'] else [])

/-- The positions at which `add_missing_escape_chars_to_regex` inserts a backslash. -/
def insertionPositions : Nat → Bool → Bool → List Char → List Nat
  | _, _, _, [] => []
  | i, inEscape, inBrackets, c :: rest =>
    let nextIsColon := rest.head? == some ':'
    let after inBrackets := insertionPositions (i + 1) (!inEscape && c == '\\') inBrackets rest
    if c = '[' ∧ inEscape = false ∧ inBrackets = false then after true
    else if c = '[' ∧ inEscape = false ∧ inBrackets = true ∧ nextIsColon = false then
      i :: after inBrackets
    else if c = ']' ∧ inEscape = false ∧ inBrackets = true then after false
    else after inBrackets

/-- `add_missing_escape_chars_to_regex`: the insertions are made from the last to the first. -/
def addMissingEscapeCharsToRegex (s : List Char) : List Char :=
  (insertionPositions 0 false false s).foldr (fun i t => t.insertIdx i '\\') s

def regexText (text : List Char) (multiline : Bool) : List Char :=
  if multiline then '(' :: '?' :: 'm' :: 's' :: ')' :: addMissingEscapeCharsToRegex text
  else addMissingEscapeCharsToRegex text

abbrev RegexKey := List Char × Bool × Bool

def compileKey (E : Engine) (k : RegexKey) : Except E.BuildError E.Regex :=
  E.build k.2.1 (regexText k.1 k.2.2)

/-- The cache of compiled expressions, the one used last in front. -/
structure RegexCache (E : Engine) where
  entries : List (RegexKey × E.Regex)
  /-- Every entry is what its key compiles to. -/
  compiled : ∀ e ∈ entries, compileKey E e.1 = .ok e.2

def regexCacheSize : Nat := 64

namespace RegexCache

variable {E : Engine}

def empty (E : Engine) : RegexCache E := ⟨[], by simp⟩

/-- Puts an entry in front, and drops what is over the size. -/
def touch (cache : RegexCache E) (e : RegexKey × E.Regex) (he : compileKey E e.1 = .ok e.2) :
    RegexCache E where
  entries := (e :: cache.entries.filter (·.1 ≠ e.1)).take regexCacheSize
  compiled x hx := by
    rcases List.mem_cons.1 (List.mem_of_mem_take hx) with rfl | hx
    · exact he
    · exact cache.compiled x (List.mem_filter.1 hx).1

def lookup (cache : RegexCache E) (k : RegexKey) :
    Option { r : E.Regex // compileKey E k = .ok r } :=
  match h : cache.entries.find? (·.1 = k) with
  | none => none
  | some e => some ⟨e.2, by
      have hk : e.1 = k := by simpa using List.find?_some h
      rw [← hk]
      exact cache.compiled e (List.mem_of_find?_eq_some h)⟩

end RegexCache

def compileRegex (E : Engine) (cache : RegexCache E) (k : RegexKey) :
    Except (PatternError E) E.Regex × RegexCache E :=
  match cache.lookup k with
  | some ⟨re, h⟩ => (.ok re, cache.touch (k, re) h)
  | none =>
    match h : compileKey E k with
    | .error e => (.error (.invalidRegex e (regexText k.1 k.2.2)), cache)
    | .ok re => (.ok re, cache.touch (k, re) h)

/-- `Pattern::to_regex`. -/
def Pattern.toRegex (E : Engine) (cache : RegexCache E) (p : Pattern)
    (strictPrefix strictSuffix : Bool) : Except (PatternError E) E.Regex × RegexCache E :=
  match p.toRegexStr strictPrefix strictSuffix with
  | none => (.error .pattern, cache)
  | some text => compileRegex E cache (text, p.caseInsensitive, p.multiline)

/-- `Pattern::exactly_matches`. -/
def Pattern.exactlyMatches (E : Engine) (cache : RegexCache E) (p : Pattern) (value : List Char) :
    Except (PatternError E) Bool × RegexCache E :=
  match p.toRegex E cache true true with
  | (.error e, cache) => (.error e, cache)
  | (.ok re, cache) => ((E.isMatch re value).mapError .run, cache)

/-! ## The grammar reads every pattern -/

variable {s rest : List Char} {c : Single}

theorem singleCharBracketMember_length
    (h : singleCharBracketMember s = some (c, rest)) : rest.length < s.length := by
  unfold singleCharBracketMember at h
  split at h
  · cases h
    simp only [List.length_cons]
    omega
  · cases h
    simp
  · split at h
    · cases h
    · cases h
      simp
  · cases h

theorem charRange_length {m : Option Member}
    (h : charRange s = some (m, rest)) : rest.length < s.length := by
  unfold charRange at h
  split at h
  next lo mid hlo =>
    split at h
    next hi rest' hhi =>
      have h1 := singleCharBracketMember_length hlo
      have h2 := singleCharBracketMember_length hhi
      cases h
      rw [List.length_cons] at h1
      omega
    next => cases h
  next => cases h

theorem charClassExpression_spec {m : Member}
    (h : charClassExpression s = some (m, rest)) :
    ∃ name ∈ charClasses, m = .cls name ∧ rest.length < s.length := by
  obtain ⟨name, hname, h⟩ := List.exists_of_findSome?_eq_some h
  dsimp only at h
  split at h
  next hpre =>
    cases h
    refine ⟨name, hname, rfl, ?_⟩
    have hle := (List.isPrefixOf_iff_prefix.1 hpre).length_le
    have hpos : 0 < (Member.text (.cls name)).length := by
      unfold Member.text
      simp
    rw [List.length_drop]
    omega
  next => cases h

theorem bracketMember_shortens : Peg.Shortens bracketMember := by
  intro s b t h
  unfold bracketMember at h
  split at h
  next m rest hc =>
    cases h
    obtain ⟨-, -, -, hlt⟩ := charClassExpression_spec hc
    exact hlt
  next =>
    split at h
    next r hr =>
      cases h
      exact charRange_length hr
    next =>
      split at h
      next c rest hc =>
        cases h
        exact singleCharBracketMember_length hc
      next => cases h

theorem invertChar_length (s : List Char) : (invertChar s).2.length ≤ s.length := by
  unfold invertChar
  split <;> simp

variable {p : Piece}

theorem bracketExpression_length
    (h : bracketExpression s = some (p, rest)) : rest.length < s.length := by
  unfold bracketExpression at h
  split at h
  next t =>
    dsimp only at h
    split at h
    next => cases h
    next m ms rest' _ hrest =>
      cases h
      have hmany := Peg.many_length_le bracketMember_shortens (invertChar t).2.length
        (invertChar t).2
      have hinv := invertChar_length t
      rw [hrest, List.length_cons] at hmany
      rw [List.length_cons]
      omega
    next => cases h
  next => cases h

theorem patternPiece_shortens : Peg.Shortens patternPiece := by
  intro s p t h
  unfold patternPiece at h
  split at h
  next => cases h
  next =>
    cases h
    simp only [List.length_cons]
    omega
  next c rest _ =>
    split at h
    next r hr =>
      cases h
      exact bracketExpression_length hr
    next =>
      split_ifs at h <;>
      · cases h
        simp

theorem patternPiece_cons (c : Char) (s : List Char) : patternPiece (c :: s) ≠ none := by
  unfold patternPiece
  split
  next h => cases h
  next => simp
  next =>
    split
    next => simp
    next => split_ifs <;> simp

/-- **Total.** Every pattern is read to its end. -/
theorem pattern_isSome (s : List Char) : ∃ ps, pattern s = some ps := by
  have hdone := Peg.many_done patternPiece_shortens (Nat.le_refl s.length)
  unfold pattern
  cases hm : Peg.many patternPiece s.length s with
  | mk ps rest =>
    rw [hm] at hdone
    cases rest with
    | nil => exact ⟨ps, rfl⟩
    | cons c rest => exact absurd hdone (patternPiece_cons c rest)

/-! ## The pieces are as the grammar has them -/

def Single.WellFormed : Single → Prop
  | .plain c => c ≠ '[' ∧ c ≠ ']' ∧ c ≠ '\\'
  | _ => True

def Member.WellFormed : Member → Prop
  | .cls name => name ∈ charClasses
  | .range lo hi => lo.WellFormed ∧ hi.WellFormed
  | .single s => s.WellFormed

def Piece.WellFormed : Piece → Prop
  | .set _ members => ∀ m ∈ members, m.WellFormed
  | _ => True

theorem singleCharBracketMember_wellFormed
    (h : singleCharBracketMember s = some (c, rest)) : c.WellFormed ∨ rest = [] := by
  unfold singleCharBracketMember at h
  split at h
  · cases h
    exact .inl trivial
  · cases h
    exact .inl trivial
  next d rest' hesc hopen =>
    split at h
    next => cases h
    next hclose =>
      cases h
      by_cases hd : d = '\\'
      · subst hd
        cases rest with
        | nil => exact .inr rfl
        | cons e rest => exact absurd rfl (hesc e rest rfl)
      · exact .inl ⟨fun h => hopen h, hclose, hd⟩
  · cases h

theorem charRange_wellFormed {om : Option Member}
    (h : charRange s = some (om, rest)) : (∀ m ∈ om, m.WellFormed) ∨ rest = [] := by
  unfold charRange at h
  split at h
  next lo mid hlo =>
    split at h
    next hi rest' hhi =>
      obtain ⟨rfl, rfl⟩ := Prod.mk.inj (Option.some.inj h)
      rcases singleCharBracketMember_wellFormed hhi with hhi | hnil
      · rcases singleCharBracketMember_wellFormed hlo with hlo | hnil
        · left
          intro m hm
          split at hm
          · cases hm
            exact ⟨hlo, hhi⟩
          · cases hm
        · cases hnil
      · exact .inr hnil
    next => cases h
  next => cases h

theorem bracketMember_wellFormed (s : List Char) (om : Option Member) (rest : List Char)
    (h : bracketMember s = some (om, rest)) : (∀ m ∈ om, m.WellFormed) ∨ rest = [] := by
  unfold bracketMember at h
  split at h
  next m rest' hc =>
    cases h
    obtain ⟨name, hname, rfl, -⟩ := charClassExpression_spec hc
    left
    intro m hm
    cases hm
    exact hname
  next =>
    split at h
    next r hr =>
      cases h
      exact charRange_wellFormed hr
    next =>
      split at h
      next c rest' hc =>
        cases h
        refine (singleCharBracketMember_wellFormed hc).imp_left fun hwf m hm => ?_
        cases hm
        exact hwf
      next => cases h

theorem bracketPiece_wellFormed {invert : Bool} {ms : List Member}
    (h : ∀ m ∈ ms, m.WellFormed) : (bracketPiece invert ms).WellFormed := by
  cases ms with
  | nil => cases invert <;> trivial
  | cons m ms => exact h

theorem bracketExpression_wellFormed (h : bracketExpression s = some (p, rest)) : p.WellFormed := by
  unfold bracketExpression at h
  split at h
  next t =>
    dsimp only at h
    split at h
    next => cases h
    next m ms rest' hms hrest =>
      cases h
      have hall := Peg.many_all bracketMember_shortens.nil bracketMember_wellFormed
        (invertChar t).2.length (invertChar t).2
      rw [hms, hrest] at hall
      rcases hall with hall | hnil
      · refine bracketPiece_wellFormed fun m hm => ?_
        obtain ⟨om, hom, hid⟩ := List.mem_filterMap.1 hm
        exact hall om (hms ▸ hom) m hid
      · cases hnil
    next => cases h
  next => cases h

theorem patternPiece_wellFormed (h : patternPiece s = some (p, rest)) : p.WellFormed := by
  unfold patternPiece at h
  split at h
  next => cases h
  next =>
    cases h
    trivial
  next =>
    split at h
    next r hr =>
      cases h
      exact bracketExpression_wellFormed hr
    next =>
      split_ifs at h <;>
      · cases h
        trivial

theorem wellFormed_of_pattern {ps : List Piece} (h : pattern s = some ps) :
    ∀ p ∈ ps, p.WellFormed := by
  unfold pattern at h
  split at h
  next ps' hm =>
    cases h
    have hall := Peg.many_forall (p := patternPiece) (Q := Piece.WellFormed)
      (fun _ _ _ h => patternPiece_wellFormed h) s.length s
    rwa [hm] at hall
  next => cases h

/-! ## Nothing to escape -/

def Quiet (inBrackets : Bool) (s : List Char) : Prop :=
  ∀ i, insertionPositions i false inBrackets s = []

theorem quiet_nil (br : Bool) : Quiet br [] := fun _ => rfl

variable {br : Bool}

theorem quiet_plain {c : Char}
    (hc : c ≠ '[' ∧ c ≠ ']' ∧ c ≠ '\\') (hs : Quiet br s) : Quiet br (c :: s) := by
  intro i
  unfold insertionPositions
  rw [beq_eq_false_iff_ne.2 hc.2.2]
  simpa [hc.1, hc.2.1] using hs (i + 1)

theorem quiet_escaped {c : Char} (hs : Quiet br s) :
    Quiet br ('\\' :: c :: s) := by
  intro i
  unfold insertionPositions
  unfold insertionPositions
  simpa using hs (i + 2)

theorem quiet_open (hs : Quiet true s) : Quiet false ('[' :: s) := by
  intro i
  unfold insertionPositions
  simpa using hs (i + 1)

theorem quiet_close (hs : Quiet false s) :
    Quiet br (']' :: s) := by
  intro i
  unfold insertionPositions
  cases br <;> simpa using hs (i + 1)

theorem quiet_colon (hs : Quiet true (':' :: s)) :
    Quiet br ('[' :: ':' :: s) := by
  intro i
  unfold insertionPositions
  cases br <;> simpa using hs (i + 1)

theorem quiet_word {w : List Char}
    (hw : ∀ c ∈ w, c ≠ '[' ∧ c ≠ ']' ∧ c ≠ '\\') (hs : Quiet br s) : Quiet br (w ++ s) := by
  induction w with
  | nil => exact hs
  | cons c w ih =>
    obtain ⟨hc, hw⟩ := List.forall_mem_cons.1 hw
    exact quiet_plain hc (ih hw)

theorem charClasses_plain : ∀ name ∈ charClasses, ∀ c ∈ name, c ≠ '[' ∧ c ≠ ']' ∧ c ≠ '\\' := by
  have h : charClasses.all fun name => name.all fun c => c != '[' && c != ']' && c != '\\' := by
    decide +kernel
  simpa [and_assoc] using h

theorem Single.quiet (hc : c.WellFormed)
    (hs : Quiet br s) : Quiet br (c.text ++ s) := by
  cases c with
  | escaped c => exact quiet_escaped hs
  | openBracket => exact quiet_escaped hs
  | plain c => exact quiet_plain hc hs

theorem Member.quiet {m : Member} (hm : m.WellFormed)
    (hs : ∀ br, Quiet br s) (br : Bool) : Quiet br (m.text ++ s) := by
  cases m with
  | cls name =>
    unfold Member.text
    rw [List.cons_append, List.cons_append, List.append_assoc]
    refine quiet_colon (quiet_plain (by decide) (quiet_word (charClasses_plain name hm) ?_))
    exact quiet_plain (by decide) (quiet_close (hs false))
  | range lo hi =>
    unfold Member.text
    rw [List.append_assoc]
    exact lo.quiet hm.1 (quiet_plain (by decide) (hi.quiet hm.2 (hs br)))
  | single c => exact c.quiet hm (hs br)

theorem Member.quiet_all {ms : List Member} (hms : ∀ m ∈ ms, m.WellFormed)
    (hs : ∀ br, Quiet br s) (br : Bool) : Quiet br (ms.flatMap Member.text ++ s) := by
  induction ms generalizing br with
  | nil => exact hs br
  | cons m ms ih =>
    obtain ⟨hm, hms⟩ := List.forall_mem_cons.1 hms
    rw [List.flatMap_cons, List.append_assoc]
    exact m.quiet hm (ih hms) br

theorem Piece.quiet (hp : p.WellFormed) (hs : Quiet false s) :
    Quiet false (p.text ++ s) := by
  cases p with
  | char c =>
    change Quiet false ((if regexCharNeedsEscaping c then ['\\', c] else [c]) ++ s)
    split_ifs with hc
    · exact quiet_escaped hs
    · refine quiet_plain ⟨?_, ?_, ?_⟩ hs <;>
      · rintro rfl
        exact hc (by decide)
  | any => exact quiet_plain (by decide) hs
  | star => exact quiet_plain (by decide) (quiet_plain (by decide) hs)
  | set invert ms =>
    unfold Piece.text
    rw [List.cons_append, List.append_assoc, List.append_assoc]
    refine quiet_open (quiet_word ?_ (Member.quiet_all hp (fun br => quiet_close hs) true))
    cases invert <;> simp
  | never =>
    refine quiet_word (w := ['(', '?', '!', ')']) (by simp) hs

theorem addMissingEscapeCharsToRegex_exact {ps : List Piece} (hps : ∀ p ∈ ps, p.WellFormed) :
    addMissingEscapeCharsToRegex ('^' :: (ps.flatMap Piece.text ++ ['$'])) =
      '^' :: (ps.flatMap Piece.text ++ ['$']) := by
  have hquiet : Quiet false (ps.flatMap Piece.text ++ ['$']) := by
    induction ps with
    | nil => exact quiet_plain (by decide) (quiet_nil _)
    | cons p ps ih =>
      obtain ⟨hp, hps⟩ := List.forall_mem_cons.1 hps
      rw [List.flatMap_cons, List.append_assoc]
      exact p.quiet hp (ih hps)
  unfold addMissingEscapeCharsToRegex
  rw [quiet_plain (by decide) hquiet 0]
  rfl

/-! ## The cache -/

/-- **Transparent cache.** What is compiled is what the key compiles to, whatever is cached. -/
theorem compileRegex_eq {E : Engine} (cache : RegexCache E) (k : RegexKey) :
    (compileRegex E cache k).1 =
      (compileKey E k).mapError (.invalidRegex · (regexText k.1 k.2.2)) := by
  unfold compileRegex
  split
  next re h _ =>
    change Except.ok re = _
    rw [h]
    rfl
  next =>
    split
    next e h =>
      rw [h]
      rfl
    next re h =>
      change Except.ok re = _
      rw [h]
      rfl

end Seahaven.Shell
