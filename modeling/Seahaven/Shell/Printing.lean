import Seahaven.Parser.WordGrammar
import Seahaven.Shell.Quoting
import Seahaven.Shell.Subscript

/-!
# Printing values and reading them back

A value is printed as what may be assigned: a text between quotes, or an array literal, whose
elements have their keys between brackets. An array literal is read token by token; an element is
split at its first closing bracket, and then the quotes of its two parts are removed.

1. `ShellValue.format`, `ShellValue.toAssignableStr`: the texts that are printed.
2. `arrayLiteral`, `literalArrayElement`, `quoteRemoval`: how a literal is read. `ReadsArray` is
   all of it.
3. `readsArray_iff`: an array that was printed is read element by element.
-/

namespace Seahaven.Shell

open Std Seahaven.Parser

/-! ## Printing -/

/-- What the getters of dynamic values answer, which is not dynamic itself. -/
structure Getters where
  get : Nat → ShellValue
  get_ne_dynamic : ∀ n m, get n ≠ .dynamic m

theorem unset_ne_dynamic (_n m : Nat) : ShellValue.unset .untyped ≠ .dynamic m := nofun

def Getters.resolve (g : Getters) : ShellValue → ShellValue
  | .dynamic n => g.get n
  | value => value

inductive FormatStyle
  | basic
  | declarePrint
  deriving DecidableEq

/-- `[{key}]={value}`. -/
def elementText (key value : List Char) : List Char := '[' :: (key ++ ']' :: '=' :: value)

namespace ShellValue

def formatEntry (entry : List Char × List Char) : List Char :=
  elementText (quoteIfNeeded entry.1 .doubleQuote) (forceQuote entry.2 .doubleQuote)

def formatIndexed (entry : Nat × List Char) : List Char :=
  elementText (Nat.toDigits 10 entry.1) (forceQuote entry.2 .doubleQuote)

/-- `format`. A blank stands behind every element of an associative array, and between those of an
indexed one. -/
def format (g : Getters) (style : FormatStyle) (value : ShellValue) : List Char :=
  match g.resolve value with
  | .unset _ | .dynamic _ => []
  | .string s =>
    match style with
    | .basic => quoteIfNeeded s .singleQuote
    | .declarePrint => forceQuote s .doubleQuote
  | .associativeArray values =>
    '(' :: ((values.toList.flatMap fun entry => formatEntry entry ++ [' ']) ++ [')'])
  | .indexedArray values =>
    '(' :: (List.intercalate [' '] (values.toList.map formatIndexed) ++ [')'])

/-- What `to_assignable_str` makes of an element. -/
def assignableElement (element : Option (List Char)) : List Char :=
  (element.map fun value => forceQuote value .singleQuote).getD []

def toAssignableStr (g : Getters) (index : Option (List Char)) (value : ShellValue) : List Char :=
  match g.resolve value, index with
  | .unset _, _ | .dynamic _, _ => []
  | .string s, _ => forceQuote s .singleQuote
  | .associativeArray values, some index => assignableElement values[index]?
  | .indexedArray values, some index =>
    match getAt values index with
    | .ok element => assignableElement element
    | .error _ => []
  | value, none => value.format g .declarePrint

def indexedArrayFromLiterals (literals : List (Option (List Char) × List Char)) : ShellValue :=
  .indexedArray (updateIndexedArrayFromLiterals ∅ literals)

def associativeArrayFromLiterals (literals : List (Option (List Char) × List Char)) :
    Except Fault ShellValue :=
  let r := updateAssociativeArrayFromLiterals ∅ literals
  r.1.map fun _ => .associativeArray r.2

end ShellValue

/-! ## Reading -/

/-- `linebreak`: newlines are taken off. -/
def linebreak (tokens : List Token) : List Token :=
  tokens.dropWhile fun t => t.asWord.isNone && t.toStr == ['\n']

def arrayElement : Peg.Rule Token (List Char) := fun tokens =>
  match linebreak tokens with
  | .word e _ :: rest => some (e, linebreak rest)
  | _ => none

/-- The elements of an array literal: `array_elements` between parentheses. -/
def arrayLiteral : List Token → Option (List (List Char))
  | .operator ['('] _ :: tokens =>
    match Peg.many arrayElement tokens.length (linebreak tokens) with
    | (elements, [.operator [')'] _]) => some elements
    | _ => none
  | _ => none

def literalArrayElement : List Char → Option (Option (List Char) × List Char)
  | [] => none
  | c :: s =>
    match (if c = '[' then s.dropWhile (· ≠ ']') else []) with
    | ']' :: '=' :: value => some (some (s.takeWhile (· ≠ ']')), value)
    | _ => some (none, c :: s)

section

variable {P A B : Type} (R : WordRules P A B) (X : Expander P A) (st : X.State)

def fieldsToString (ifs : List Char) (e : Expansion) : List Char :=
  List.intercalate [if e.concatenate then ifsFirstChar ifs else ' '] (e.fields.map charsOf)

/-- Quote removal: what a word comes to in which neither tildes nor braces are expanded. -/
def quoteRemoval (s : List Char) : Option (List Char) :=
  match Peg.many (wordPiece R fun _ => false) s.length s with
  | (ps, []) =>
    match expandWordPieces X .strip ps st with
    | (.ok es, st') => some (fieldsToString (X.ifs st') (coalesceExpansions es))
    | (.error _, _) => none
  | _ => none

/-- An element of a literal: its key, if it has one, and its value, without their quotes. -/
def elementLiteral (s : List Char) : Option (Option (List Char) × List Char) :=
  match literalArrayElement s with
  | none => none
  | some (none, value) => (quoteRemoval R X st value).map fun value => (none, value)
  | some (some key, value) =>
    (quoteRemoval R X st key).bind fun key =>
      (quoteRemoval R X st value).map fun value => (some key, value)

def ReadsArray (o : TokenizerOptions) (text : List Char)
    (literals : List (Option (List Char) × List Char)) : Prop :=
  ∃ n tokens elements, uncachedTokenizeStr o text n = some (.ok tokens) ∧
    arrayLiteral tokens = some elements ∧ elements.mapM (elementLiteral R X st) = some literals

end

/-! ## The tokens of a literal -/

def ElementsSeen (elements : List (List Char)) (tokens : List Token) : Prop :=
  ∃ span words, tokens = .operator ['('] span :: words ∧ AreWords elements words

variable {elements : List (List Char)}

theorem ElementsSeen.followed {element : List Char}
    {tokens : List Token} (h : Followed (ElementsSeen elements) (.word element) tokens) :
    ElementsSeen (elements ++ [element]) tokens := by
  obtain ⟨before, span, rfl, opening, words, rfl, hwords⟩ := h
  exact ⟨opening, words ++ [.word element span], rfl, AreWords.followed ⟨words, span, rfl, hwords⟩⟩

theorem linebreak_word (s : List Char) (span : SourceSpan) (tokens : List Token) :
    linebreak (.word s span :: tokens) = .word s span :: tokens := rfl

theorem linebreak_paren (span : SourceSpan) : linebreak [.operator [')'] span] =
    [.operator [')'] span] := rfl

theorem reads_elements {words : List Token}
    (h : AreWords elements words) (span : SourceSpan) :
    linebreak (words ++ [.operator [')'] span]) = words ++ [.operator [')'] span] ∧
      Peg.Reads arrayElement (words ++ [.operator [')'] span]) elements [.operator [')'] span] := by
  induction words generalizing elements with
  | nil =>
    obtain rfl : elements = [] := by simpa [AreWords] using h.symm
    exact ⟨rfl, .done rfl⟩
  | cons t words ih =>
    cases elements with
    | nil => cases h
    | cons e elements =>
      obtain ⟨ht, hwords⟩ := List.cons.inj h
      obtain ⟨hbreak, hreads⟩ := ih hwords
      cases t with
      | operator s l => cases ht
      | word s l =>
        obtain rfl : s = e := Option.some.inj ht
        refine ⟨rfl, .more (t := words ++ [.operator [')'] span]) ?_ (Nat.lt_succ_self _) hreads⟩
        rw [arrayElement, List.cons_append, linebreak_word]
        dsimp only
        rw [hbreak]

theorem arrayLiteral_of_seen {tokens : List Token}
    (h : Followed (ElementsSeen elements) (.operator [')']) tokens) :
    arrayLiteral tokens = some elements := by
  obtain ⟨before, span, rfl, opening, words, rfl, hwords⟩ := h
  obtain ⟨hbreak, hreads⟩ := reads_elements hwords span
  simp only [List.cons_append, arrayLiteral, hbreak, Peg.many_of_reads hreads]

/-- Texts between quotes that the tokenizer takes into a word, of which none is a single quote. -/
structure Scannable (us : List Quoting.Unit) : Prop where
  ok : ∀ u ∈ us, u.Ok
  noSingle : ∀ s, .single s ∉ us

def IsElement (s : List Char) : Prop :=
  ∃ us vs, Scannable us ∧ Scannable vs ∧ s = elementText (Quoting.textOf us) (Quoting.textOf vs)

theorem IsElement.ne_nil {s : List Char} (h : IsElement s) : s ≠ [] := by
  obtain ⟨us, vs, -, -, rfl⟩ := h
  exact List.cons_ne_nil _ _

section

variable {o : TokenizerOptions} {input rest : List Char} {seen : List Token → Prop}

theorem IsElement.scan {s : List Char} (hs : IsElement s)
    (h : Amid o input seen .none false [] (s ++ rest)) : Amid o input seen .none false s rest := by
  obtain ⟨us, vs, hus, hvs, rfl⟩ := hs
  rw [elementText, List.cons_append, List.append_assoc] at h
  have hkey := Quoting.scan_units hus.ok (h.literal rfl (.inr (by decide))) (.inl (by simp))
    (.inl hus.noSingle)
  have hequals := (hkey.literal rfl (.inl (by simp))).literal rfl (.inl (by simp))
  have hvalue := Quoting.scan_units hvs.ok hequals (.inl (by simp)) (.inl hvs.noSingle)
  simpa [elementText] using hvalue

theorem scan_entries {es : List (List Char)} (hes : ∀ e ∈ es, IsElement e)
    (h : Amid o input (ElementsSeen elements) .none false []
      ((es.flatMap fun e => e ++ [' ']) ++ rest)) :
    Amid o input (ElementsSeen (elements ++ es)) .none false [] rest := by
  induction es generalizing elements with
  | nil => simpa using h
  | cons e es ih =>
    obtain ⟨he, hes⟩ := List.forall_mem_cons.1 hes
    rw [List.flatMap_cons, List.append_assoc, List.append_assoc] at h
    have hword := ((he.scan h).blank he.ne_nil).mono fun _ => ElementsSeen.followed
    rw [List.append_cons]
    exact ih hes hword

theorem scan_intercalated {es : List (List Char)} (hes : ∀ e ∈ es, IsElement e)
    (h : Amid o input (ElementsSeen elements) .none false []
      (List.intercalate [' '] es ++ [')'])) :
    Amid o input (ElementsSeen (elements ++ es)) .none false [] [')'] := by
  induction es generalizing elements with
  | nil => simpa using h
  | cons e es ih =>
    obtain ⟨he, hes⟩ := List.forall_mem_cons.1 hes
    cases es with
    | nil =>
      rw [List.intercalate_singleton] at h
      exact ((he.scan h).wordEnds he.ne_nil rfl).mono fun _ => ElementsSeen.followed
    | cons e' es =>
      rw [List.intercalate_cons_cons, List.append_assoc, List.append_assoc] at h
      have hword := ((he.scan h).blank he.ne_nil).mono fun _ => ElementsSeen.followed
      rw [List.append_cons]
      exact ih hes hword

theorem amid_opened (o : TokenizerOptions) (text : List Char) :
    Amid o ('(' :: text) (ElementsSeen []) .none false [] text :=
  ((amid_init o _).paren (.inl rfl)).mono fun tokens h => by
    obtain ⟨_, span, rfl, rfl⟩ := h
    exact ⟨span, [], rfl, rfl⟩

theorem endsWith_closed (h : Amid o input (ElementsSeen elements) .none false [] [')']) :
    EndsWith o input fun tokens => arrayLiteral tokens = some elements :=
  (h.paren (.inr rfl)).nothing.mono fun _ => arrayLiteral_of_seen

theorem readsArray_iff {P A B : Type} {R : WordRules P A B} {X : Expander P A} {st : X.State}
    {text : List Char}
    {literals : List (Option (List Char) × List Char)}
    (h : EndsWith o text fun tokens => arrayLiteral tokens = some elements) :
    ReadsArray R X st o text literals ↔ elements.mapM (elementLiteral R X st) = some literals := by
  obtain ⟨n, tokens, hn, helements⟩ := h
  constructor
  · rintro ⟨n', tokens', elements', hn', helements', hliterals⟩
    obtain rfl := tokens_unique hn hn'
    obtain rfl := Option.some.inj (helements.symm.trans helements')
    exact hliterals
  · exact fun hliterals => ⟨n, tokens, elements, hn, helements, hliterals⟩

end

/-! ## Removing quotes -/

section

variable {P A B : Type} {R : WordRules P A B} {X : Expander P A} {st : X.State}

variable (X st) in
def ExpandTo (ps : List (WordPiece P A)) (s : List Char) : Prop :=
  ∃ (es : List Expansion) (fs : List WordField), expandWordPieces X .strip ps st = (.ok es, st) ∧
    es.map Expansion.fields = fs.map (fun f => [f]) ∧ charsOf fs.flatten = s

theorem Quoting.Spells.expandTo {ps : List (WordPiece P A)} {s : List Char}
    (h : Quoting.Spells ps s) : ExpandTo X st ps s := by
  obtain ⟨es, fs, hes, hfs, -, hmeans⟩ := Quoting.spells_expands X st h
  exact ⟨es, fs, hes, hfs, hmeans.chars⟩

theorem ExpandTo.cons {p : WordPiece P A} {ps : List (WordPiece P A)} {s t : List Char}
    (hp : ExpandTo X st [p] s) (hps : ExpandTo X st ps t) : ExpandTo X st (p :: ps) (s ++ t) := by
  obtain ⟨es, fs, hes, hfs, rfl⟩ := hp
  obtain ⟨es', fs', hes', hfs', rfl⟩ := hps
  refine ⟨es ++ es', fs ++ fs', ?_, ?_, ?_⟩
  · rw [expandWordPieces] at hes ⊢
    obtain ⟨e, st₁, he, hrest⟩ := Op.bind_eq_ok.1 hes
    obtain ⟨rfl, rfl⟩ : [e] = es ∧ st₁ = st := by
      cases hrest
      exact ⟨rfl, rfl⟩
    rw [Op.bind_ok he, Op.bind_ok hes']
    rfl
  · rw [List.map_append, List.map_append, hfs, hfs']
  · rw [List.flatten_append, charsOf_append]

theorem expandTo_text (s : List Char) : ExpandTo X st [.text s] s :=
  ⟨[.ofPiece (.splittable s)], [[.splittable s]], rfl, rfl, List.append_nil _⟩

theorem quoteRemoval_eq {s t : List Char} {ps : List (WordPiece P A)}
    (hreads : Peg.Reads (wordPiece R fun _ => false) s ps []) (h : ExpandTo X st ps t) :
    quoteRemoval R X st s = some t := by
  obtain ⟨es, fs, hes, hfs, rfl⟩ := h
  rw [quoteRemoval, Peg.many_of_reads hreads]
  dsimp only
  rw [hes]
  dsimp only
  by_cases hnil : fs = []
  · subst hnil
    obtain rfl : es = [] := by simpa using hfs
    rfl
  · rw [fieldsToString, Quoting.coalesce_fields hnil hfs, List.map_singleton,
      List.intercalate_singleton]

variable (R X st) in
theorem quoteRemoval_units {us : List Quoting.Unit} (hus : ∀ u ∈ us, u.Ok) :
    quoteRemoval R X st (Quoting.textOf us) = some (Quoting.valueOf us) := by
  obtain ⟨ps, hreads, hspells, -⟩ :=
    Quoting.reads_units R (fun _ => false) (fun _ _ _ => rfl) hus
  exact quoteRemoval_eq hreads hspells.expandTo

end

/-! ## Quoted texts -/

def reread (s : List Char) : List Char := decoded (readBack s)

theorem apart_of_noControl {s : List Char} (h : s.any needsAnsiCQuoting = false) : Apart s := by
  rintro l c d r rfl hzero
  rw [List.any_eq_false] at h
  refine absurd ?_ (h c (by simp))
  simp [needsAnsiCQuoting, low_of_writtenFromZero hzero]

theorem reread_of_noControl {s : List Char} (hs : '\x00' ∉ s)
    (h : s.any needsAnsiCQuoting = false) : reread s = s :=
  (decoded_readBack_iff hs).2 (apart_of_noControl h)

/-- A text as units that are between double quotes where it must be quoted. -/
inductive DoubleQuoted (alwaysQuote : Bool) (s : List Char) : List Quoting.Unit → Prop
  | plain (hquote : alwaysQuote = false) (hs : ∀ c ∈ s, (Quoting.Unit.plain c).Ok) :
    DoubleQuoted alwaysQuote s (s.map .plain)
  | double (hctl : s.any needsAnsiCQuoting = false) : DoubleQuoted alwaysQuote s [.double s]
  | ansi : DoubleQuoted alwaysQuote s [.ansi s]

namespace DoubleQuoted

variable {alwaysQuote : Bool} {s : List Char} {us : List Quoting.Unit}

theorem scannable (h : DoubleQuoted alwaysQuote s us) (hs : '\x00' ∉ s) : Scannable us := by
  cases h with
  | plain _ hplain =>
    refine ⟨fun u hu => ?_, fun t ht => ?_⟩
    · obtain ⟨c, hc, rfl⟩ := List.mem_map.1 hu
      exact hplain c hc
    · obtain ⟨c, -, hc⟩ := List.mem_map.1 ht
      cases hc
  | double _ =>
    refine ⟨fun u hu => ?_, fun t ht => nomatch List.mem_singleton.1 ht⟩
    obtain rfl := List.mem_singleton.1 hu
    trivial
  | ansi =>
    refine ⟨fun u hu => ?_, fun t ht => nomatch List.mem_singleton.1 ht⟩
    obtain rfl := List.mem_singleton.1 hu
    exact hs

theorem valueOf_eq (h : DoubleQuoted alwaysQuote s us) (hs : '\x00' ∉ s) :
    Quoting.valueOf us = reread s := by
  cases h with
  | plain _ hplain =>
    have hctl : s.any needsAnsiCQuoting = false := by
      rw [List.any_eq_false]
      exact fun c hc => by simpa using (hplain c hc).2
    rw [reread_of_noControl hs hctl]
    clear hplain hctl hs
    induction s with
    | nil => rfl
    | cons c s ih => rw [List.map_cons, Quoting.valueOf_cons, ih]; rfl
  | double hctl =>
    rw [reread_of_noControl hs hctl]
    exact List.append_nil s
  | ansi => exact List.append_nil _

theorem of_quote (alwaysQuote : Bool) (s : List Char) : ∃ us, DoubleQuoted alwaysQuote s us ∧
    quote s (.of alwaysQuote .doubleQuote) = Quoting.textOf us := by
  have hansi : (s.any fun c => needsAnsiCQuoting c &&
      (!(QuoteOptions.of alwaysQuote .doubleQuote).avoidAnsiCQuotingNewline || c != '\n')) =
      s.any needsAnsiCQuoting := by
    congr 1
    funext c
    exact Bool.and_true _
  unfold quote
  rw [hansi]
  cases hctl : s.any needsAnsiCQuoting with
  | true => exact ⟨_, .ansi, (List.append_nil _).symm⟩
  | false =>
    rw [if_neg Bool.false_ne_true]
    cases hneeds : ((QuoteOptions.of alwaysQuote .doubleQuote).alwaysQuote || s.isEmpty ||
        s.any needsEscaping) with
    | true => exact ⟨_, .double hctl, (List.append_nil _).symm⟩
    | false =>
      obtain ⟨hrest, hescaping⟩ := Bool.or_eq_false_iff.1 hneeds
      rw [List.any_eq_false] at hescaping hctl
      refine ⟨_, .plain (Bool.or_eq_false_iff.1 hrest).1 fun c hc =>
        ⟨by simpa using hescaping c hc, by simpa using hctl c hc⟩, ?_⟩
      rw [if_neg Bool.false_ne_true]
      clear hneeds hrest hescaping hctl hansi
      induction s with
      | nil => rfl
      | cons c s ih => exact congrArg (c :: ·) ih

end DoubleQuoted

/-! ## Brackets -/

variable {c : Char}

theorem bracket_doubleQuotedChar (h : ']' ∈ Quoting.doubleQuotedChar c) : c = ']' := by
  unfold Quoting.doubleQuotedChar at h
  split_ifs at h
  · simpa [eq_comm] using h
  · simpa [eq_comm] using h

theorem bracket_ansiCChar (h : ']' ∈ ansiCChar c) : c = ']' := by
  have hdigit : ∀ n, ']' ≠ octalDigit n := fun n he => by
    have hoctal := (octalDigit_spec n).1
    rw [← he] at hoctal
    cases hoctal
  rcases ansiCChar_cases c with ⟨⟨x, hx, hescape⟩, -⟩ | ⟨-, hx, -⟩ | ⟨-, hx⟩ | ⟨hx, -⟩ <;>
    rw [hx] at h
  · -- a backslash and a bracket are two characters
    obtain rfl : x = ']' := by simpa [eq_comm] using h
    have hbytes : String.utf8EncodeChar c = unexpanded ']' := by
      exact (Escaped.bytes.inj (Except.ok.inj (hescape []).symm)).1
    have htwo : decoded (unexpanded ']') = [c] := by
      rw [← hbytes, ← List.append_nil (String.utf8EncodeChar c), decoded_encode]
      rfl
    have hlength : (decoded (unexpanded ']')).length = 2 := by decide
    rw [htwo] at hlength
    cases hlength
  · simp [hdigit] at h
  · simp at h
  · exact (List.mem_singleton.1 h).symm

theorem first_bracket {f : Char → List Char} (hf : ∀ c, ']' ∈ f c → c = ']') (hself : f ']' = [']'])
    {s : List Char} (hs : ']' ∈ s) :
    ∃ s₁ s₂ : List Char,
      s.flatMap f = s₁.flatMap f ++ ']' :: s₂.flatMap f ∧ ']' ∉ s₁.flatMap f := by
  obtain ⟨s₁, s₂, rfl, hnot⟩ := List.eq_append_cons_of_mem hs
  refine ⟨s₁, s₂, ?_, fun h => ?_⟩
  · rw [List.flatMap_append, List.flatMap_cons, hself]
    rfl
  · obtain ⟨c, hc, hmem⟩ := List.mem_flatMap.1 h
    exact hnot (hf c hmem ▸ hc)

theorem DoubleQuoted.bracket_not_mem {alwaysQuote : Bool} {s : List Char} {us : List Quoting.Unit}
    (h : DoubleQuoted alwaysQuote s us) (hs : ']' ∉ s) : ']' ∉ Quoting.textOf us := by
  have hflat : ∀ {f : Char → List Char}, (∀ c, ']' ∈ f c → c = ']') → ']' ∉ s.flatMap f :=
    fun hf hin => by
      obtain ⟨c, hc, hmem⟩ := List.mem_flatMap.1 hin
      exact hs (hf c hmem ▸ hc)
  cases h with
  | plain _ hplain =>
    intro hin
    obtain ⟨u, hu, hmem⟩ := List.mem_flatMap.1 hin
    obtain ⟨c, hc, rfl⟩ := List.mem_map.1 hu
    exact hs (List.mem_singleton.1 hmem ▸ hc)
  | double _ =>
    have hnot := hflat fun _ => bracket_doubleQuotedChar
    simpa [Quoting.textOf, Quoting.Unit.text] using hnot
  | ansi =>
    have hnot := hflat fun _ => bracket_ansiCChar
    simpa [Quoting.textOf, Quoting.Unit.text] using hnot

variable {key : List Char}

theorem literalArrayElement_split (hkey : ']' ∉ key) (rest : List Char) :
    literalArrayElement ('[' :: (key ++ ']' :: rest)) =
      match rest with
      | '=' :: value => some (some key, value)
      | _ => some (none, '[' :: (key ++ ']' :: rest)) := by
  have hall : ∀ c ∈ key, decide (c ≠ ']') = true := fun c hc =>
    decide_eq_true fun h => hkey (h ▸ hc)
  have hdrop : (key ++ ']' :: rest).dropWhile (fun c => decide (c ≠ ']')) = ']' :: rest := by
    rw [List.dropWhile_append_of_pos hall]
    rfl
  have htake : (key ++ ']' :: rest).takeWhile (fun c => decide (c ≠ ']')) = key := by
    rw [List.takeWhile_append_of_pos hall]
    exact List.append_nil _
  rw [literalArrayElement, if_pos rfl, hdrop, htake]
  cases rest with
  | nil => rfl
  | cons c value =>
    by_cases hc : c = '='
    · subst hc
      rfl
    · simp [hc]

/-! ## Elements -/

section

variable {P A B : Type} {R : WordRules P A B} {X : Expander P A} {st : X.State}

theorem quoteRemoval_none {s : List Char}
    (h : wordPiece R (fun _ => false) (c :: s) = none) : quoteRemoval R X st (c :: s) = none := by
  have hmany : Peg.many (wordPiece R fun _ => false) (c :: s).length (c :: s) = ([], c :: s) := by
    rw [List.length_cons, Peg.many, h]
  rw [quoteRemoval, hmany]

theorem wordPiece_unclosed_double (stop : List Char → Bool) (s : List Char) :
    wordPiece R stop ('"' :: s.flatMap Quoting.doubleQuotedChar) = none := by
  obtain ⟨qs, hreads, -⟩ := Quoting.reads_inner R s (Quoting.endsInner_nil R)
  rw [List.append_nil] at hreads
  rw [wordPiece, if_pos rfl, doubleQuotedRest, Peg.many_of_reads hreads]
  rfl

theorem ansiCQuotedRest_unclosed (s : List Char) :
    ansiCQuotedRest (s.flatMap ansiCChar) = none := by
  induction s with
  | nil => rfl
  | cons c s ih =>
    rw [List.flatMap_cons]
    rcases Quoting.ansiCChar_shape c with ⟨x, l, hx, -, hl⟩ | ⟨hx, hb, hq⟩
    · rw [hx, List.cons_append, List.cons_append, Quoting.ansiCQuotedRest_escape,
        Quoting.ansiCQuotedRest_literals hl, ih]
      rfl
    · rw [hx, List.singleton_append, Quoting.ansiCQuotedRest_plain hb hq, ih]
      rfl

variable (R) in
/-- The rule that is given for a dollar sign reads nothing where that of the grammar fails. -/
def FollowsGrammar (po : ParserOptions) : Prop := ∀ last s n,
  Grammar.run (wordGrammar po) n (.call .dollarSignWordPiece) ⟨last, s⟩ = .fails →
    R.dollar.rule s = none

theorem FollowsGrammar.quote {po : ParserOptions} (hR : FollowsGrammar R po) (s : List Char) :
    R.dollar.rule ('$' :: '\'' :: s) = none := hR none _ 24 rfl

theorem wordPiece_unclosed_ansi {po : ParserOptions} (hR : FollowsGrammar R po)
    (stop : List Char → Bool) (s : List Char) :
    wordPiece R stop ('$' :: '\'' :: s.flatMap ansiCChar) = none := by
  have hdollar : dollarSignWordPiece R ('$' :: '\'' :: s.flatMap ansiCChar) = none := by
    rw [dollarSignWordPiece, if_pos (.inl rfl), hR.quote]
  have htext : unquotedLiteralText stop ('$' :: '\'' :: s.flatMap ansiCChar) =
      ([], '$' :: '\'' :: s.flatMap ansiCChar) :=
    if_pos (.inr (.inr (.inr (.inr (.inl rfl)))))
  rw [wordPiece, if_neg (by decide), if_neg (by decide), if_pos ⟨rfl, rfl⟩, List.tail_cons,
    ansiCQuotedRest_unclosed]
  dsimp only
  rw [if_neg (by simp), hdollar, htext]
  rfl

namespace DoubleQuoted

variable {alwaysQuote : Bool} {s : List Char} {us : List Quoting.Unit} {po : ParserOptions}

variable (X st) in
theorem bracket_unclosed (h : DoubleQuoted alwaysQuote s us) (hR : FollowsGrammar R po)
    (hs : ']' ∈ s) : ∃ pre post, Quoting.textOf us = pre ++ ']' :: post ∧ ']' ∉ pre ∧
      quoteRemoval R X st pre = none := by
  cases h with
  | plain _ hplain => exact absurd (hplain ']' hs).1 (by decide)
  | double _ =>
    obtain ⟨s₁, s₂, hflat, hnot⟩ := first_bracket (fun _ => bracket_doubleQuotedChar) rfl hs
    refine ⟨'"' :: s₁.flatMap Quoting.doubleQuotedChar,
      s₂.flatMap Quoting.doubleQuotedChar ++ ['"'], ?_, by simpa using hnot,
      quoteRemoval_none (wordPiece_unclosed_double _ s₁)⟩
    simp [Quoting.textOf, Quoting.Unit.text, hflat]
  | ansi =>
    obtain ⟨s₁, s₂, hflat, hnot⟩ := first_bracket (fun _ => bracket_ansiCChar) rfl hs
    refine ⟨'$' :: '\'' :: s₁.flatMap ansiCChar, s₂.flatMap ansiCChar ++ ['\''], ?_,
      by simpa using hnot, quoteRemoval_none (wordPiece_unclosed_ansi hR _ s₁)⟩
    simp [Quoting.textOf, Quoting.Unit.text, hflat]

variable (R X st) in
theorem one_piece (h : DoubleQuoted alwaysQuote s us) (hs : '\x00' ∉ s)
    (hquoted : alwaysQuote = true ∨ ']' ∈ s) :
    (∃ t, Quoting.textOf us = '"' :: t ∨ Quoting.textOf us = '$' :: t) ∧
      ∀ rest, ∃ piece : WordPiece P A, ExpandTo X st [piece] (reread s) ∧
        wordPiece R (fun _ => false) (Quoting.textOf us ++ rest) = some (piece, rest) := by
  cases h with
  | plain hquote hplain =>
    rcases hquoted with rfl | hmem
    · cases hquote
    · exact absurd (hplain ']' hmem).1 (by decide)
  | double hctl =>
    refine ⟨⟨_, .inl rfl⟩, fun rest => ?_⟩
    obtain ⟨qs, hreads, hinner⟩ := Quoting.wordPiece_double R (fun _ => false) s rest
    have hspells := Quoting.Spells.double hinner .nil
    rw [List.append_nil] at hspells
    refine ⟨.doubleQuotedSequence qs, ?_, ?_⟩
    · rw [reread_of_noControl hs hctl]
      exact hspells.expandTo
    · simpa [Quoting.textOf, Quoting.Unit.text] using hreads
  | ansi =>
    refine ⟨⟨_, .inr rfl⟩, fun rest => ⟨.ansiCQuotedText (s.flatMap ansiCChar), ?_, ?_⟩⟩
    · have hspells : Quoting.Spells (P := P) (A := A) [.ansiCQuotedText (s.flatMap ansiCChar)]
          (reread s ++ []) := .ansi hs .nil
      rw [List.append_nil] at hspells
      exact hspells.expandTo
    · have hansi := @Quoting.wordPiece_ansi P A B R (fun _ => false) s rest
      simpa [Quoting.textOf, Quoting.Unit.text] using hansi

variable {value : List Char} {vs : List Quoting.Unit} {b : Bool}

/-- **An element without a closing bracket in its key** is read as its key and its value. -/
theorem elementLiteral_eq {us : List Quoting.Unit} {b' : Bool}
    (hus : DoubleQuoted b key us) (hvs : DoubleQuoted b' value vs) (hkey : '\x00' ∉ key)
    (hvalue : '\x00' ∉ value) (hbracket : ']' ∉ key) :
    elementLiteral R X st (elementText (Quoting.textOf us) (Quoting.textOf vs)) =
      some (some (reread key), reread value) := by
  have hsplit := literalArrayElement_split (hus.bracket_not_mem hbracket)
    ('=' :: Quoting.textOf vs)
  have hk := quoteRemoval_units R X st (hus.scannable hkey).ok
  have hv := quoteRemoval_units R X st (hvs.scannable hvalue).ok
  rw [hus.valueOf_eq hkey] at hk
  rw [hvs.valueOf_eq hvalue] at hv
  simp only [elementText, elementLiteral, hsplit, hk, hv, Option.bind_some, Option.map_some]

variable (R X st) in
theorem quoteRemoval_element {us : List Quoting.Unit}
    (hus : DoubleQuoted b key us) (hvs : DoubleQuoted true value vs) (hkey : '\x00' ∉ key)
    (hvalue : '\x00' ∉ value) (hbracket : ']' ∈ key) :
    quoteRemoval R X st (elementText (Quoting.textOf us) (Quoting.textOf vs)) =
      some ('[' :: (reread key ++ ']' :: '=' :: reread value)) := by
  obtain ⟨⟨t, ht⟩, hkeyPiece⟩ := hus.one_piece R X st hkey (.inr hbracket)
  obtain ⟨⟨t', ht'⟩, hvaluePiece⟩ := hvs.one_piece R X st hvalue (.inl rfl)
  obtain ⟨p, hp, hreads⟩ := hkeyPiece (']' :: '=' :: Quoting.textOf vs)
  obtain ⟨p', hp', hreads'⟩ := hvaluePiece []
  rw [List.append_nil] at hreads'
  have hopen : wordPiece R (fun _ => false) (elementText (Quoting.textOf us) (Quoting.textOf vs)) =
      some (.text ['['], Quoting.textOf us ++ ']' :: '=' :: Quoting.textOf vs) := by
    rw [elementText]
    rcases ht with ht | ht <;> rw [ht] <;> rfl
  have hequals : wordPiece R (fun _ => false) (']' :: '=' :: Quoting.textOf vs) =
      some (.text [']', '='], Quoting.textOf vs) := by
    rcases ht' with ht' | ht' <;> rw [ht'] <;> rfl
  have hpos : 0 < (Quoting.textOf us).length ∧ 0 < (Quoting.textOf vs).length := by
    constructor
    · rcases ht with ht | ht <;> rw [ht] <;> exact Nat.succ_pos _
    · rcases ht' with ht' | ht' <;> rw [ht'] <;> exact Nat.succ_pos _
  refine quoteRemoval_eq (.more hopen ?_ (.more hreads ?_ (.more hequals ?_ (.more hreads' ?_
    (.done rfl))))) ((expandTo_text ['[']).cons (hp.cons ((expandTo_text [']', '=']).cons hp')))
  · rw [elementText]
    exact Nat.lt_succ_self _
  · rw [List.length_append]
    omega
  · rw [List.length_cons, List.length_cons]
    omega
  · exact hpos.2

theorem elementLiteral_bracket {us : List Quoting.Unit}
    (hR : FollowsGrammar R po) (hus : DoubleQuoted b key us) (hvs : DoubleQuoted true value vs)
    (hkey : '\x00' ∉ key) (hvalue : '\x00' ∉ value) (hbracket : ']' ∈ key) :
    elementLiteral R X st (elementText (Quoting.textOf us) (Quoting.textOf vs)) = none ∨
    elementLiteral R X st (elementText (Quoting.textOf us) (Quoting.textOf vs)) =
      some (none, '[' :: (reread key ++ ']' :: '=' :: reread value)) := by
  obtain ⟨pre, post, htext, hnot, hnone⟩ := hus.bracket_unclosed X st hR hbracket
  have hwhole := quoteRemoval_element R X st hus hvs hkey hvalue hbracket
  have hform : elementText (Quoting.textOf us) (Quoting.textOf vs) =
      '[' :: (pre ++ ']' :: (post ++ ']' :: '=' :: Quoting.textOf vs)) := by
    rw [elementText, htext, List.append_assoc]
    rfl
  generalize elementText (Quoting.textOf us) (Quoting.textOf vs) = e at hwhole hform ⊢
  have hsplit := literalArrayElement_split hnot (post ++ ']' :: '=' :: Quoting.textOf vs)
  rw [← hform] at hsplit
  unfold elementLiteral
  split at hsplit
  · left
    simp only [hsplit, hnone, Option.bind_none]
  · right
    simp only [hsplit, hwhole, Option.map_some]

end DoubleQuoted

end

end Seahaven.Shell
