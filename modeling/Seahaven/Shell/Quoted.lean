import Seahaven.Shell.AnsiQuote

/-!
# How quoted text is read

The texts that `quote` writes are made of units: a character as it is or behind a backslash, and
texts between single, double or ANSI-C quotes.

1. `Unit`: the units, with their text and their value.
2. `Spells`: pieces of a word that expand to a given text. `spells_expands`: to one field.
3. `reads_units`: the grammar reads units into pieces that spell their values.
-/

namespace Seahaven.Shell

open Seahaven.Parser

namespace Quoting

def doubleQuotedChar (c : Char) : List Char :=
  if c = '$' ∨ c = '`' ∨ c = '"' ∨ c = '\\' then ['\\', c] else [c]

/-- A unit of a text that is written by `quote`. -/
inductive Unit
  | plain (c : Char)
  | escaped (c : Char)
  | single (s : List Char)
  | double (s : List Char)
  | ansi (s : List Char)

namespace Unit

def text : Unit → List Char
  | plain c => [c]
  | escaped c => ['\\', c]
  | single s => '\'' :: (s ++ ['\''])
  | double s => '"' :: (s.flatMap doubleQuotedChar ++ ['"'])
  | ansi s => '$' :: '\'' :: (s.flatMap ansiCChar ++ ['\''])

def value : Unit → List Char
  | plain c => [c]
  | escaped c => [c]
  | single s => s
  | double s => s
  | ansi s => decoded (readBack s)

/-- What a unit may hold. -/
def Ok : Unit → Prop
  | plain c => needsEscaping c = false ∧ needsAnsiCQuoting c = false
  | escaped c => c ≠ '\n'
  | single s => '\'' ∉ s
  | double _ => True
  | ansi s => '\x00' ∉ s

def isPlain : Unit → Bool
  | plain _ => true
  | _ => false

end Unit

def textOf (us : List Unit) : List Char := us.flatMap Unit.text

def valueOf (us : List Unit) : List Char := us.flatMap Unit.value

variable {c : Char}

theorem ne_of_plain {x : Char} (h : needsEscaping c = false) (hx : needsEscaping x = true) :
    c ≠ x := by
  rintro rfl
  rw [h] at hx
  cases hx

/-! ## Pieces that spell a text -/

variable {s : List Char}

section

variable {P A B : Type}

/-- Pieces between double quotes that stand for a text. -/
inductive SpellsInner : List (WordPiece P A) → List Char → Prop
  | nil : SpellsInner [] []
  | text {t s : List Char} {ps : List (WordPiece P A)} (h : SpellsInner ps s) :
    SpellsInner (.text t :: ps) (t ++ s)
  | escape {c : Char} {s : List Char} {ps : List (WordPiece P A)} (h : SpellsInner ps s) :
    SpellsInner (.escapeSequence ['\\', c] :: ps) (c :: s)

/-- Pieces that stand for a text. Only in plain text there may be a pattern. -/
inductive Spells : List (WordPiece P A) → List Char → Prop
  | nil : Spells [] []
  | text {t s : List Char} {ps : List (WordPiece P A)} (ht : ∀ c ∈ t, needsEscaping c = false)
    (h : Spells ps s) : Spells (.text t :: ps) (t ++ s)
  | escape {c : Char} {s : List Char} {ps : List (WordPiece P A)} (h : Spells ps s) :
    Spells (.escapeSequence ['\\', c] :: ps) (c :: s)
  | single {t s : List Char} {ps : List (WordPiece P A)} (h : Spells ps s) :
    Spells (.singleQuotedText t :: ps) (t ++ s)
  | double {t s : List Char} {qs ps : List (WordPiece P A)} (hq : SpellsInner qs t)
    (h : Spells ps s) : Spells (.doubleQuotedSequence qs :: ps) (t ++ s)
  | ansi {t s : List Char} {ps : List (WordPiece P A)} (ht : '\x00' ∉ t) (h : Spells ps s) :
    Spells (.ansiCQuotedText (t.flatMap ansiCChar) :: ps) (decoded (readBack t) ++ s)

variable {X : Expander P A} {st : X.State}

/-- A field that stands for a text, in which nothing may be a pattern but plain text. -/
structure Means (f : WordField) (s : List Char) : Prop where
  chars : charsOf f = s
  plain : ∀ t, .splittable t ∈ f → ∀ c ∈ t, needsEscaping c = false

theorem Means.append {f g : WordField} {t : List Char} (hf : Means f s) (hg : Means g t) :
    Means (f ++ g) (s ++ t) where
  chars := by rw [charsOf_append, hf.chars, hg.chars]
  plain u hu := (List.mem_append.1 hu).elim (hf.plain u) (hg.plain u)

theorem means_unsplittable (s : List Char) : Means [.unsplittable s] s where
  chars := List.append_nil _
  plain t ht := by simp at ht

theorem means_splittable (h : ∀ c ∈ s, needsEscaping c = false) :
    Means [.splittable s] s where
  chars := List.append_nil _
  plain t ht := by
    obtain rfl : t = s := by simpa using ht
    exact h

theorem joinFields_one (acc f : WordField) : joinFields [acc] [f] = [acc ++ f] := rfl

variable {ps : List (WordPiece P A)}

theorem processDoubleQuotedPieces_spells (X : Expander P A) (h : UnquotedBackslashHandling)
    (joiner : Char) (st : X.State)
    (hs : SpellsInner ps s) {fields : List WordField}
    {s₀ : List Char} (hf : fields = [] ∧ s₀ = [] ∨ ∃ f, fields = [f] ∧ Means f s₀) :
    ∃ fields', processDoubleQuotedPieces X h joiner fields ps st = (.ok fields', st) ∧
      (ps = [] ∧ fields' = fields ∨ ∃ f, fields' = [f] ∧ Means f (s₀ ++ s)) := by
  have hstep : ∀ (fields : List WordField) (t s₀ : List Char),
      (fields = [] ∧ s₀ = [] ∨ ∃ f, fields = [f] ∧ Means f s₀) →
      ∃ f, joinFields fields (quotedFields joiner (.ofPiece (.unsplittable t))) = [f] ∧
        Means f (s₀ ++ t) := by
    rintro fields t s₀ (⟨rfl, rfl⟩ | ⟨f, rfl, hf⟩)
    · exact ⟨[.unsplittable t], rfl, means_unsplittable t⟩
    · exact ⟨f ++ [.unsplittable t], rfl, hf.append (means_unsplittable t)⟩
  have hquoted : ∀ t : List Char, quotedFields joiner (.ofPiece (.splittable t)) =
      quotedFields joiner (.ofPiece (.unsplittable t)) := fun _ => rfl
  induction hs generalizing fields s₀ with
  | nil => exact ⟨fields, rfl, .inl ⟨rfl, rfl⟩⟩
  | @text t s ps _ ih =>
    obtain ⟨f, hjoin, hmeans⟩ := hstep fields t s₀ hf
    obtain ⟨fields', hrun, hres⟩ := ih (.inr ⟨f, rfl, hmeans⟩)
    refine ⟨fields', ?_, .inr ?_⟩
    · rw [processDoubleQuotedPieces, expandWordPiece]
      change processDoubleQuotedPieces X h joiner (joinFields fields
        (quotedFields joiner (.ofPiece (.splittable t)))) ps st = _
      rw [hquoted, hjoin, hrun]
    · rcases hres with ⟨rfl, rfl⟩ | ⟨f', rfl, hf'⟩
      · cases ‹SpellsInner [] s›
        exact ⟨f, rfl, by simpa using hmeans⟩
      · exact ⟨f', rfl, by simpa using hf'⟩
  | @escape c s ps _ ih =>
    obtain ⟨f, hjoin, hmeans⟩ := hstep fields [c] s₀ hf
    obtain ⟨fields', hrun, hres⟩ := ih (.inr ⟨f, rfl, hmeans⟩)
    refine ⟨fields', ?_, .inr ?_⟩
    · rw [processDoubleQuotedPieces, expandWordPiece]
      change processDoubleQuotedPieces X h joiner (joinFields fields
        (quotedFields joiner (.ofPiece (.unsplittable [c])))) ps st = _
      rw [hjoin, hrun]
    · rcases hres with ⟨rfl, rfl⟩ | ⟨f', rfl, hf'⟩
      · cases ‹SpellsInner [] s›
        exact ⟨f, rfl, by simpa using hmeans⟩
      · exact ⟨f', rfl, by simpa using hf'⟩

theorem expand_single {f : WordField} {e : Expansion} {es : List Expansion}
    {piece : WordPiece P A}
    (he : expandWordPiece X .strip false piece st = (.ok e, st)) (_ : e.fields = [f])
    (hes : expandWordPieces X .strip ps st = (.ok es, st)) :
    expandWordPieces X .strip (piece :: ps) st = (.ok (e :: es), st) := by
  rw [expandWordPieces, Op.bind_ok he, Op.bind_ok hes]
  rfl

variable (X st) in
/-- **Pieces that spell a text** expand to one field each, and together to the text. -/
theorem spells_expands (hs : Spells ps s) :
    ∃ (es : List Expansion) (fs : List WordField),
      expandWordPieces X .strip ps st = (.ok es, st) ∧
      es.map Expansion.fields = fs.map (fun f => [f]) ∧ fs.length = ps.length ∧
      Means fs.flatten s := by
  have hcons : ∀ {piece : WordPiece P A} {ps : List (WordPiece P A)} {t s : List Char}
      (f : WordField) (e : Expansion), expandWordPiece X .strip false piece st = (.ok e, st) →
      e.fields = [f] → Means f t →
      (∃ (es : List Expansion) (fs : List WordField), expandWordPieces X .strip ps st = (.ok es, st) ∧
        es.map Expansion.fields = fs.map (fun f => [f]) ∧ fs.length = ps.length ∧
        Means fs.flatten s) →
      ∃ (es : List Expansion) (fs : List WordField),
        expandWordPieces X .strip (piece :: ps) st = (.ok es, st) ∧
        es.map Expansion.fields = fs.map (fun f => [f]) ∧ fs.length = (piece :: ps).length ∧
        Means fs.flatten (t ++ s) := by
    rintro piece ps t s f e he hf hmeans ⟨es, fs, hes, hfs, hlen, hrest⟩
    refine ⟨e :: es, f :: fs, expand_single he hf hes, ?_, ?_, ?_⟩
    · rw [List.map_cons, List.map_cons, hf, hfs]
    · rw [List.length_cons, List.length_cons, hlen]
    · rw [List.flatten_cons]
      exact hmeans.append hrest
  induction hs with
  | nil => exact ⟨[], [], rfl, rfl, rfl, rfl, nofun⟩
  | @text t s ps ht _ ih =>
    exact hcons [.splittable t] _ rfl rfl (means_splittable ht) ih
  | @escape c s ps _ ih =>
    exact hcons [.unsplittable [c]] (.ofPiece (.unsplittable [c])) rfl rfl
      (means_unsplittable [c]) ih
  | @single t s ps _ ih =>
    exact hcons [.unsplittable t] _ rfl rfl (means_unsplittable t) ih
  | @double t s qs ps hq _ ih =>
    obtain ⟨fields, hrun, hres⟩ := processDoubleQuotedPieces_spells X .strip
      (ifsFirstChar (X.ifs st)) st hq (.inl ⟨rfl, rfl⟩)
    have hexp : expandWordPiece X .strip false (.doubleQuotedSequence qs) st =
        (.ok { fields := if qs.isEmpty then fields ++ [[.unsplittable []]] else fields
               concatenate := false }, st) := by
      rw [expandWordPiece]
      exact (Op.bind_ok (Op.read_apply (fun s => .ok (ifsFirstChar (X.ifs s))) st)).trans
        ((Op.bind_ok hrun).trans rfl)
    rcases hres with ⟨rfl, rfl⟩ | ⟨f, rfl, hmeans⟩
    · cases hq
      exact hcons [.unsplittable []] _ hexp rfl (means_unsplittable []) ih
    · cases qs with
      | nil => cases hrun
      | cons q qs => exact hcons f _ hexp rfl hmeans ih
  | @ansi t s ps ht _ ih =>
    refine hcons [.unsplittable (decoded (readBack t))]
      (.ofPiece (.unsplittable (decoded (readBack t)))) ?_ rfl (means_unsplittable _) ih
    rw [expandWordPiece, expand_body ht]
    rfl

theorem coalesce_fields {es : List Expansion} {fs : List WordField} (hne : fs ≠ [])
    (h : es.map Expansion.fields = fs.map (fun f => [f])) :
    (coalesceExpansions es).fields = [fs.flatten] := by
  have hloop : ∀ (es : List Expansion) (fs : List WordField) (acc : Expansion) (f : WordField),
      acc.fields = [f] → es.map Expansion.fields = fs.map (fun f => [f]) →
      (es.foldl (fun acc e => { acc with
        fields := joinFields acc.fields e.fields
        concatenate := e.concatenate
        fromArray := e.fromArray }) acc).fields = [f ++ fs.flatten] := by
    intro es
    induction es with
    | nil =>
      rintro fs acc f hacc h
      obtain rfl : fs = [] := by simpa using h.symm
      simpa using hacc
    | cons e es ih =>
      rintro fs acc f hacc h
      cases fs with
      | nil => cases h
      | cons g fs =>
        obtain ⟨he, hes⟩ := List.cons.inj h
        rw [List.foldl_cons, ih fs _ (f ++ g) ?_ hes, List.flatten_cons, List.append_assoc]
        dsimp only
        rw [hacc, he]
        rfl
  cases fs with
  | nil => exact absurd rfl hne
  | cons f fs =>
    cases es with
    | nil => cases h
    | cons e es =>
      obtain ⟨he, hes⟩ := List.cons.inj h
      refine hloop es fs _ f ?_ hes
      dsimp only
      rw [he]
      rfl

end

/-! ## The grammar on units -/

section

variable {P A B : Type} (R : WordRules P A B)

theorem singleQuotedRest_append (hs : '\'' ∉ s) (rest : List Char) :
    singleQuotedRest (s ++ '\'' :: rest) = some (s, rest) := by
  induction s with
  | nil => rfl
  | cons c s ih =>
    obtain ⟨hc, hs⟩ := not_or.1 fun h => hs (List.mem_cons.2 h)
    rw [List.cons_append, singleQuotedRest, if_neg fun h => hc h.symm, ih hs]
    rfl

theorem ansiCQuotedRest_plain (hb : c ≠ '\\') (hq : c ≠ '\'') (s : List Char) :
    ansiCQuotedRest (c :: s) = (ansiCQuotedRest s).map fun r => (c :: r.1, r.2) := by
  rw [ansiCQuotedRest]
  · rw [if_neg hq]
  · rintro _ h _
    exact hb h
  · rintro _ h _
    exact hb h

theorem ansiCQuotedRest_escape (x : Char) (s : List Char) :
    ansiCQuotedRest ('\\' :: x :: s) =
      (ansiCQuotedRest s).map fun r => ('\\' :: x :: r.1, r.2) := by
  by_cases hb : x = '\\'
  · subst hb
    rfl
  · by_cases hq : x = '\''
    · subst hq
      rfl
    · rw [ansiCQuotedRest, if_neg (by decide), ansiCQuotedRest_plain hb hq, Option.map_map]
      · rfl
      · rintro _ _ h
        exact hb (List.cons.inj h).1
      · rintro _ _ h
        exact hq (List.cons.inj h).1

theorem ansiCChar_shape (c : Char) :
    (∃ x l, ansiCChar c = '\\' :: x :: l ∧ x ≠ '\n' ∧ ∀ d ∈ l, d ≠ '\\' ∧ d ≠ '\'') ∨
    (ansiCChar c = [c] ∧ c ≠ '\\' ∧ c ≠ '\'') := by
  have hdigit : ∀ n x, isOctalDigit x = false → octalDigit n ≠ x := fun n x hx h => by
    have := (octalDigit_spec n).1
    rw [h, hx] at this
    cases this
  by_cases hnamed : c ∈ ['\x07', '\x08', '\x1b', '\x0c', '\n', '\r', '\t', '\x0b', '\\', '\'']
  · left
    simp only [List.mem_cons, List.not_mem_nil, or_false] at hnamed
    rcases hnamed with rfl | rfl | rfl | rfl | rfl | rfl | rfl | rfl | rfl | rfl <;>
      exact ⟨_, [], rfl, by decide, nofun⟩
  · simp only [List.mem_cons, List.not_mem_nil, or_false, not_or] at hnamed
    obtain ⟨h₁, h₂, h₃, h₄, h₅, h₆, h₇, h₈, h₉, h₁₀⟩ := hnamed
    unfold ansiCChar
    rw [if_neg h₁, if_neg h₂, if_neg h₃, if_neg h₄, if_neg h₅, if_neg h₆, if_neg h₇, if_neg h₈,
      if_neg h₉, if_neg h₁₀]
    cases needsAnsiCQuoting c with
    | true =>
      refine .inl ⟨_, _, rfl, hdigit _ _ (by decide), fun d hd => ?_⟩
      simp only [List.mem_cons, List.not_mem_nil, or_false] at hd
      rcases hd with rfl | rfl <;> exact ⟨hdigit _ _ (by decide), hdigit _ _ (by decide)⟩
    | false => exact .inr ⟨rfl, h₉, h₁₀⟩

theorem ansiCQuotedRest_literals {l : List Char} (hl : ∀ d ∈ l, d ≠ '\\' ∧ d ≠ '\'')
    (s : List Char) : ansiCQuotedRest (l ++ s) = (ansiCQuotedRest s).map fun r => (l ++ r.1, r.2) := by
  induction l with
  | nil => simp
  | cons d l ih =>
    obtain ⟨hd, hl⟩ := List.forall_mem_cons.1 hl
    rw [List.cons_append, ansiCQuotedRest_plain hd.1 hd.2, ih hl, Option.map_map]
    rfl

theorem ansiCQuotedRest_body (s rest : List Char) :
    ansiCQuotedRest (s.flatMap ansiCChar ++ '\'' :: rest) = some (s.flatMap ansiCChar, rest) := by
  induction s with
  | nil => rfl
  | cons c s ih =>
    rw [List.flatMap_cons, List.append_assoc]
    rcases ansiCChar_shape c with ⟨x, l, hx, -, hl⟩ | ⟨hx, hb, hq⟩
    · rw [hx, List.cons_append, List.cons_append, ansiCQuotedRest_escape,
        ansiCQuotedRest_literals hl, ih]
      rfl
    · rw [hx]
      change ansiCQuotedRest (c :: (s.flatMap ansiCChar ++ '\'' :: rest)) = _
      rw [ansiCQuotedRest_plain hb hq, ih]
      rfl

def isDoubleQuotedSpecial (c : Char) : Bool := c == '$' || c == '`' || c == '"' || c == '\\'

theorem doubleQuotedChar_eq (c : Char) :
    doubleQuotedChar c = if isDoubleQuotedSpecial c then ['\\', c] else [c] := by
  unfold doubleQuotedChar isDoubleQuotedSpecial
  congr 1
  simp [or_assoc]

variable {run : List Char}

theorem flatMap_doubleQuotedChar
    (hrun : ∀ c ∈ run, isDoubleQuotedSpecial c = false) : run.flatMap doubleQuotedChar = run := by
  induction run with
  | nil => rfl
  | cons c run ih =>
    obtain ⟨hc, hrun⟩ := List.forall_mem_cons.1 hrun
    rw [List.flatMap_cons, ih hrun, doubleQuotedChar_eq, hc]
    rfl

theorem dollarSignWordPiece_none (hdollar : c ≠ '$') (hback : c ≠ '`') (s : List Char) :
    dollarSignWordPiece R (c :: s) = none := by
  rw [dollarSignWordPiece, if_neg (not_or.2 ⟨hdollar, hback⟩)]

theorem doubleQuotedEscapeSequence_none (h : c ≠ '\\') (s : List Char) :
    doubleQuotedEscapeSequence (P := P) (A := A) (c :: s) = none := by
  unfold doubleQuotedEscapeSequence
  split
  · rename_i heq
    exact absurd (List.cons.inj heq).1 h
  · rfl

theorem doubleQuotedEscapeSequence_special (h : isDoubleQuotedSpecial c = true)
    (s : List Char) : doubleQuotedEscapeSequence (P := P) (A := A) ('\\' :: c :: s) =
      some (.escapeSequence ['\\', c], s) := by
  rw [doubleQuotedEscapeSequence, if_pos (by simpa [isDoubleQuotedSpecial, or_assoc] using h)]

theorem not_special (h : isDoubleQuotedSpecial c = false) :
    c ≠ '$' ∧ c ≠ '`' ∧ c ≠ '"' ∧ c ≠ '\\' := by
  simpa [isDoubleQuotedSpecial, and_assoc] using h

variable {tail : List Char}

theorem doubleQuoteBodyText_run (hrun : ∀ c ∈ run, isDoubleQuotedSpecial c = false)
    (htail : doubleQuoteBodyText R tail = ([], tail)) :
    doubleQuoteBodyText R (run ++ tail) = (run, tail) := by
  induction run with
  | nil => exact htail
  | cons c run ih =>
    obtain ⟨hc, hrun⟩ := List.forall_mem_cons.1 hrun
    obtain ⟨hdollar, hback, hquote, hslash⟩ := not_special hc
    rw [List.cons_append, doubleQuoteBodyText, if_neg, ih hrun]
    rw [doubleQuotedEscapeSequence_none hslash, dollarSignWordPiece_none R hdollar hback]
    simp [hquote]

/-- What no piece between double quotes starts with. -/
structure EndsInner (tail : List Char) : Prop where
  piece : doubleQuotedWordPiece R tail = none
  text : doubleQuoteBodyText R tail = ([], tail)

theorem endsInner_nil : EndsInner R [] := ⟨rfl, rfl⟩

theorem endsInner_quote (rest : List Char) : EndsInner R ('"' :: rest) where
  piece := rfl
  text := by rw [doubleQuoteBodyText, if_pos (.inl rfl)]

theorem doubleQuoteBodyText_ends
    (h : s.head?.any (fun x => !isDoubleQuotedSpecial x) = false) (htail : EndsInner R tail) :
    doubleQuoteBodyText R (s.flatMap doubleQuotedChar ++ tail) =
      ([], s.flatMap doubleQuotedChar ++ tail) := by
  cases s with
  | nil => exact htail.text
  | cons c s =>
    have hc : isDoubleQuotedSpecial c = true := by simpa using h
    rw [List.flatMap_cons, doubleQuotedChar_eq, hc, if_pos rfl]
    simp only [List.cons_append, List.nil_append]
    rw [doubleQuoteBodyText, if_pos]
    rw [doubleQuotedEscapeSequence_special hc]
    exact .inr (.inl rfl)

theorem reads_inner (s : List Char) (htail : EndsInner R tail) : ∃ ps,
    Peg.Reads (doubleQuotedWordPiece R) (s.flatMap doubleQuotedChar ++ tail) ps tail ∧
      SpellsInner ps s := by
  induction hn : s.length using Nat.strongRecOn generalizing s with
  | ind n ih =>
    subst hn
    cases s with
    | nil => exact ⟨[], .done htail.piece, .nil⟩
    | cons c s =>
      cases hc : isDoubleQuotedSpecial c with
      | true =>
        obtain ⟨ps, hreads, hspells⟩ := ih s.length (Nat.lt_succ_self _) s rfl
        refine ⟨.escapeSequence ['\\', c] :: ps, ?_, .escape hspells⟩
        rw [List.flatMap_cons, doubleQuotedChar_eq, hc, if_pos rfl]
        refine .more ?_ ?_ hreads
        · unfold doubleQuotedWordPiece
          simp only [List.cons_append, List.nil_append]
          rw [dollarSignWordPiece_none R (by decide) (by decide),
            doubleQuotedEscapeSequence_special hc]
        · simp only [List.cons_append, List.nil_append, List.length_cons]
          omega
      | false =>
        -- the longest run of characters that stand for themselves
        obtain ⟨run, s', hs, hrun, hnext⟩ : ∃ run s', c :: s = c :: run ++ s' ∧
            (∀ x ∈ c :: run, isDoubleQuotedSpecial x = false) ∧
            s'.head?.any (fun x => !isDoubleQuotedSpecial x) = false := by
          refine ⟨s.takeWhile fun x => !isDoubleQuotedSpecial x,
            s.dropWhile fun x => !isDoubleQuotedSpecial x, ?_, ?_, ?_⟩
          · rw [List.cons_append, List.takeWhile_append_dropWhile]
          · refine List.forall_mem_cons.2 ⟨hc, fun x hx => ?_⟩
            simpa using List.mem_takeWhile_imp hx
          · cases hd : s.dropWhile fun x => !isDoubleQuotedSpecial x with
            | nil => rfl
            | cons x t =>
              have := List.head_dropWhile_not (fun x => !isDoubleQuotedSpecial x)
                (l := s) (by simp [hd])
              simpa [hd] using this
        rw [hs]
        have hlen : s'.length < (c :: s).length := by
          rw [hs, List.length_append, List.length_cons]
          omega
        obtain ⟨ps, hreads, hspells⟩ := ih s'.length hlen s' rfl
        refine ⟨.text (c :: run) :: ps, ?_, .text hspells⟩
        obtain ⟨hdollar, hback, hquote, hslash⟩ := not_special hc
        rw [List.flatMap_append, flatMap_doubleQuotedChar hrun, List.append_assoc]
        refine .more ?_ ?_ hreads
        · have hbody := doubleQuoteBodyText_run R hrun (doubleQuoteBodyText_ends R hnext htail)
          unfold doubleQuotedWordPiece
          rw [List.cons_append] at hbody ⊢
          rw [dollarSignWordPiece_none R hdollar hback, doubleQuotedEscapeSequence_none hslash,
            hbody]
        · simp only [List.length_append, List.length_cons]
          omega

/-! ## One piece -/

variable {stop : List Char → Bool}

def Stops (stop : List Char → Bool) : Prop :=
  ∀ c s, needsEscaping c = false → stop (c :: s) = false

theorem wordPiece_escaped (c : Char) (s : List Char) :
    wordPiece R stop ('\\' :: c :: s) = some (.escapeSequence ['\\', c], s) := rfl

theorem wordPiece_single (hs : '\'' ∉ s) (rest : List Char) :
    wordPiece R stop ('\'' :: (s ++ '\'' :: rest)) = some (.singleQuotedText s, rest) := by
  rw [wordPiece, if_neg (by decide), if_pos rfl, singleQuotedRest_append hs]
  rfl

theorem wordPiece_double (stop : List Char → Bool) (s rest : List Char) : ∃ qs,
    wordPiece R stop ('"' :: (s.flatMap doubleQuotedChar ++ '"' :: rest)) =
      some (.doubleQuotedSequence qs, rest) ∧ SpellsInner qs s := by
  obtain ⟨qs, hreads, hspells⟩ := reads_inner R s (endsInner_quote R rest)
  refine ⟨qs, ?_, hspells⟩
  rw [wordPiece, if_pos rfl, doubleQuotedRest, Peg.many_of_reads hreads]
  rfl

theorem wordPiece_ansi (s rest : List Char) :
    wordPiece R stop ('$' :: '\'' :: (s.flatMap ansiCChar ++ '\'' :: rest)) =
      some (.ansiCQuotedText (s.flatMap ansiCChar), rest) := by
  rw [wordPiece, if_neg (by decide), if_neg (by decide), if_pos ⟨rfl, rfl⟩, List.tail_cons,
    ansiCQuotedRest_body]

theorem unquotedLiteralText_run (hstop : Stops stop)
    (hrun : ∀ c ∈ run, needsEscaping c = false)
    (htail : unquotedLiteralText stop tail = ([], tail)) :
    unquotedLiteralText stop (run ++ tail) = (run, tail) := by
  induction run with
  | nil => exact htail
  | cons c run ih =>
    obtain ⟨hc, hrun⟩ := List.forall_mem_cons.1 hrun
    rw [List.cons_append, unquotedLiteralText, if_neg, ih hrun]
    rintro (h | ⟨h, -⟩ | h | h | h | h)
    · rw [hstop c _ hc] at h
      cases h
    all_goals exact ne_of_plain hc (by decide) h

theorem wordPiece_text (hstop : Stops stop)
    (hrun : ∀ x ∈ c :: run, needsEscaping x = false)
    (htail : unquotedLiteralText stop tail = ([], tail)) :
    wordPiece R stop (c :: run ++ tail) = some (.text (c :: run), tail) := by
  have hc : needsEscaping c = false := hrun c List.mem_cons_self
  have htext := unquotedLiteralText_run hstop hrun htail
  have hesc : normalEscapeSequence (P := P) (A := A) (c :: (run ++ tail)) = none := by
    unfold normalEscapeSequence
    split
    · rename_i heq
      exact absurd (List.cons.inj heq).1 (ne_of_plain hc (by decide))
    · rfl
  have hdollar : c ≠ '$' := ne_of_plain hc (by decide)
  rw [List.cons_append] at htext ⊢
  rw [wordPiece, if_neg (ne_of_plain hc (by decide)), if_neg (ne_of_plain hc (by decide)),
    if_neg (fun h => hdollar h.1), if_neg (fun h => hdollar h.1),
    dollarSignWordPiece_none R hdollar (ne_of_plain hc (by decide)), hesc, htext]

variable {us : List Unit}

theorem plain_run (hus : ∀ u ∈ us, u.Ok) : ∃ (run : List Char) (pre us' : List Unit),
    us = pre ++ us' ∧ textOf us = run ++ textOf us' ∧ valueOf us = run ++ valueOf us' ∧
      (∀ c ∈ run, needsEscaping c = false) ∧ us'.head?.any Unit.isPlain = false ∧
      (us.head?.any Unit.isPlain = true → run ≠ []) := by
  induction us with
  | nil => exact ⟨[], [], [], rfl, rfl, rfl, nofun, rfl, nofun⟩
  | cons u us ih =>
    obtain ⟨hu, hrest⟩ := List.forall_mem_cons.1 hus
    cases u with
    | plain c =>
      obtain ⟨run, pre, us', rfl, htext, hvalue, hrun, hhead, -⟩ := ih hrest
      refine ⟨c :: run, .plain c :: pre, us', rfl, ?_, ?_, List.forall_mem_cons.2 ⟨hu.1, hrun⟩,
        hhead, fun _ => List.cons_ne_nil _ _⟩
      · exact congrArg (c :: ·) htext
      · exact congrArg (c :: ·) hvalue
    | escaped c => exact ⟨[], [], _, rfl, rfl, rfl, nofun, rfl, nofun⟩
    | single s => exact ⟨[], [], _, rfl, rfl, rfl, nofun, rfl, nofun⟩
    | double s => exact ⟨[], [], _, rfl, rfl, rfl, nofun, rfl, nofun⟩
    | ansi s => exact ⟨[], [], _, rfl, rfl, rfl, nofun, rfl, nofun⟩

theorem unquotedLiteralText_ends (h : us.head?.any Unit.isPlain = false) :
    unquotedLiteralText stop (textOf us) = ([], textOf us) := by
  cases us with
  | nil => rfl
  | cons u us =>
    cases u with
    | plain c => cases h
    | escaped c =>
      change unquotedLiteralText stop ('\\' :: c :: textOf us) = ([], '\\' :: c :: textOf us)
      rw [unquotedLiteralText, if_pos (.inr (.inl ⟨rfl, List.cons_ne_nil _ _⟩))]
    | single s =>
      rw [textOf, List.flatMap_cons]
      exact if_pos (.inr (.inr (.inl rfl)))
    | double s =>
      rw [textOf, List.flatMap_cons]
      exact if_pos (.inr (.inr (.inr (.inl rfl))))
    | ansi s =>
      rw [textOf, List.flatMap_cons]
      exact if_pos (.inr (.inr (.inr (.inr (.inl rfl)))))

/-- What the first piece of units is: it takes off some of them, and stands for them. -/
structure FirstPiece (stop : List Char → Bool) (us : List Unit) (piece : WordPiece P A)
    (text value : List Char)
    (us' : List Unit) : Prop where
  reads : wordPiece R stop (textOf us) = some (piece, textOf us')
  text_eq : textOf us = text ++ textOf us'
  text_ne : text ≠ []
  value_eq : valueOf us = value ++ valueOf us'
  spells : ∀ ps s, Spells ps s → Spells (piece :: ps) (value ++ s)
  ok : ∀ u ∈ us', u.Ok

theorem textOf_cons (u : Unit) (us : List Unit) : textOf (u :: us) = u.text ++ textOf us :=
  List.flatMap_cons

theorem valueOf_cons (u : Unit) (us : List Unit) : valueOf (u :: us) = u.value ++ valueOf us :=
  List.flatMap_cons

theorem first_piece (hstop : Stops stop) {u : Unit} (hus : ∀ x ∈ u :: us, x.Ok) :
    ∃ piece text value us', FirstPiece R stop (u :: us) piece text value us' := by
  obtain ⟨hu, hrest⟩ := List.forall_mem_cons.1 hus
  have hquoted : ∀ {s rest : List Char} {q : Char},
      (s ++ [q]) ++ rest = s ++ q :: rest := List.append_assoc _ _ _
  cases u with
  | plain c =>
    obtain ⟨run, pre, us', hpre, htext, hvalue, hrun, hhead, hne⟩ := plain_run hus
    obtain ⟨x, run, rfl⟩ := List.exists_cons_of_ne_nil (hne rfl)
    refine ⟨.text (x :: run), x :: run, x :: run, us', ?_, htext, List.cons_ne_nil _ _, hvalue,
      fun ps s h => .text hrun h, fun u hu => hus u ?_⟩
    · rw [htext]
      exact wordPiece_text R hstop hrun (unquotedLiteralText_ends hhead)
    · rw [hpre]
      exact List.mem_append_right _ hu
  | escaped c =>
    exact ⟨_, ['\\', c], [c], us, rfl, rfl, List.cons_ne_nil _ _, rfl, fun ps s h => .escape h,
      hrest⟩
  | single s =>
    refine ⟨.singleQuotedText s, _, s, us, ?_, textOf_cons _ _, List.cons_ne_nil _ _, rfl,
      fun ps t h => .single h, hrest⟩
    rw [textOf_cons, Unit.text, List.cons_append, hquoted]
    exact wordPiece_single R hu _
  | double s =>
    obtain ⟨qs, hreads, hspells⟩ := wordPiece_double R stop s (textOf us)
    refine ⟨.doubleQuotedSequence qs, _, s, us, ?_, textOf_cons _ _, List.cons_ne_nil _ _, rfl,
      fun ps t h => .double hspells h, hrest⟩
    rw [textOf_cons, Unit.text, List.cons_append, hquoted]
    exact hreads
  | ansi s =>
    refine ⟨.ansiCQuotedText (s.flatMap ansiCChar), _, _, us, ?_, textOf_cons _ _,
      List.cons_ne_nil _ _, valueOf_cons _ _, fun ps t h => .ansi hu h, hrest⟩
    rw [textOf_cons, Unit.text, List.cons_append, List.cons_append, hquoted]
    exact wordPiece_ansi R s _

/-- **The grammar reads units** into pieces that stand for their values. -/
theorem reads_units (stop : List Char → Bool) (hstop : Stops stop)
    (hus : ∀ u ∈ us, u.Ok) : ∃ ps,
    Peg.Reads (wordPiece R stop) (textOf us) ps [] ∧ Spells ps (valueOf us) ∧
      (us ≠ [] → ps ≠ []) := by
  induction hn : (textOf us).length using Nat.strongRecOn generalizing us with
  | ind n ih =>
    subst hn
    cases us with
    | nil => exact ⟨[], .done rfl, .nil, fun h => absurd rfl h⟩
    | cons u us =>
      obtain ⟨piece, text, value, us', hfirst⟩ := first_piece R hstop hus
      have hlt : (textOf us').length < (textOf (u :: us)).length := by
        have := List.length_pos_of_ne_nil hfirst.text_ne
        rw [hfirst.text_eq, List.length_append]
        omega
      obtain ⟨ps, hreads, hspells, -⟩ := ih _ hlt hfirst.ok rfl
      refine ⟨piece :: ps, .more hfirst.reads hlt hreads, ?_, fun _ => List.cons_ne_nil _ _⟩
      rw [hfirst.value_eq]
      exact hfirst.spells _ _ hspells

theorem unexpandedWord_units (hus : ∀ u ∈ us, u.Ok)
    (ht : tildeExprPrefix (textOf us) = none) : ∃ ps,
      unexpandedWord R (textOf us) = .pieces ps ∧ Spells ps (valueOf us) ∧ (us ≠ [] → ps ≠ []) := by
  obtain ⟨ps, hreads, hspells, hne⟩ := reads_units R (fun _ => false) (fun _ _ _ => rfl) hus
  refine ⟨ps, ?_, hspells, hne⟩
  rw [unexpandedWord, ht]
  dsimp only
  rw [Peg.many_of_reads hreads]

theorem head_unit {u : Unit} (hu : u.Ok) (us : List Unit) : ∃ c s,
    textOf (u :: us) = c :: s ∧ c ≠ '\x7b' := by
  cases u with
  | plain c => exact ⟨c, textOf us, rfl, ne_of_plain hu.1 (by decide)⟩
  | escaped c => exact ⟨'\\', c :: textOf us, rfl, by decide⟩
  | single s => exact ⟨'\'', _, textOf_cons _ _, by decide⟩
  | double s => exact ⟨'"', _, textOf_cons _ _, by decide⟩
  | ansi s => exact ⟨'$', _, textOf_cons _ _, by decide⟩

theorem reads_nonBrace (hus : ∀ u ∈ us, u.Ok) : ∃ texts,
    Peg.Reads (nonBraceExprText R fun _ => false) (textOf us) texts [] ∧
      texts.flatten = textOf us ∧ (us ≠ [] → texts ≠ []) := by
  have hstop : Stops fun t => opensBrace t || false := fun c s hc => by
    have : c ≠ '\x7b' := ne_of_plain hc (by decide)
    simp [opensBrace, this]
  induction hn : (textOf us).length using Nat.strongRecOn generalizing us with
  | ind n ih =>
    subst hn
    cases us with
    | nil => exact ⟨[], .done rfl, rfl, fun h => absurd rfl h⟩
    | cons u us =>
      obtain ⟨piece, text, value, us', hfirst⟩ := first_piece R hstop hus
      have hlt : (textOf us').length < (textOf (u :: us)).length := by
        have := List.length_pos_of_ne_nil hfirst.text_ne
        rw [hfirst.text_eq, List.length_append]
        omega
      obtain ⟨texts, hreads, htexts, -⟩ := ih _ hlt hfirst.ok rfl
      refine ⟨text :: texts, .more ?_ hlt hreads, ?_, fun _ => List.cons_ne_nil _ _⟩
      · obtain ⟨c, s, hcs, hc⟩ := head_unit (hus u List.mem_cons_self) us
        have htake : (textOf (u :: us)).take
            ((textOf (u :: us)).length - (textOf us').length) = text := by
          rw [hfirst.text_eq, List.length_append, Nat.add_sub_cancel, List.take_left]
        have hpiece := hfirst.reads
        rw [hcs] at htake hpiece ⊢
        rw [nonBraceExprText, if_neg hc, hpiece, Option.map_some]
        dsimp only
        rw [htake]
      · rw [List.flatten_cons, htexts, hfirst.text_eq]

theorem braceExpansions_units (hus : ∀ u ∈ us, u.Ok) (hne : us ≠ []) :
    braceExpansions R (textOf us) = .pieces [.text (textOf us)] := by
  obtain ⟨texts, hreads, htexts, hts⟩ := reads_nonBrace R hus
  obtain ⟨u, us, rfl⟩ := List.exists_cons_of_ne_nil hne
  obtain ⟨c, s, hcs, hc⟩ := head_unit (hus u List.mem_cons_self) us
  obtain ⟨t, ts, rfl⟩ := List.exists_cons_of_ne_nil (hts hne)
  have hpiece : braceExpansionPiece R (fun _ => false) (textOf (u :: us)) =
      some (.text (textOf (u :: us)), []) := by
    have hbrace : braceExpr R (textOf (u :: us)) = none := by rw [hcs, braceExpr, if_neg hc]
    rw [braceExpansionPiece, hbrace]
    dsimp only
    rw [Peg.many_of_reads hreads]
    dsimp only
    rw [htexts]
  have hreads : Peg.Reads (braceExpansionPiece R fun _ => false) (textOf (u :: us))
      [.text (textOf (u :: us))] [] := .more hpiece (by rw [hcs]; exact Nat.succ_pos _) (.done rfl)
  rw [braceExpansions, Peg.many_of_reads hreads]

end

end Quoting

end Seahaven.Shell
