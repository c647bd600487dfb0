import Seahaven.Parser.Scan
import Seahaven.Shell.FieldRule
import Seahaven.Shell.Quoted

/-!
# When quoted text reads back

1. `scans_units`: the tokenizer takes units for one word, unless they start with a number sign.
2. `quote` writes units (`quote_units`).
3. `ReadsBack` is what a quoted text should do, and `readsBack_quote_iff` says when it does.
-/

variable {s : List Char} {us : List Unit}

namespace Seahaven.Shell

open Seahaven.Parser

namespace Quoting

/-! ## The tokenizer on units -/

variable {u : Unit}

section

variable {o : TokenizerOptions} {input text rest : List Char} {seen : List Token → Prop}
  {q : QuoteKind}

theorem literal_run (h : Amid o input seen q false text (s ++ rest))
    (hs : ∀ c ∈ s, literal q c = true) (htext : text ≠ []) :
    Amid o input seen q false (text ++ s) rest := by
  induction s generalizing text with
  | nil => rwa [List.append_nil]
  | cons c s ih =>
    obtain ⟨hc, hs⟩ := List.forall_mem_cons.1 hs
    rw [List.append_cons]
    exact ih (Amid.literal h hc (.inl htext)) hs (by simp)

theorem ansi_body
    (h : Amid o input seen .ansiC false text (s.flatMap ansiCChar ++ rest)) (htext : text ≠ []) :
    Amid o input seen .ansiC false (text ++ s.flatMap ansiCChar) rest := by
  induction s generalizing text with
  | nil => rwa [List.flatMap_nil, List.append_nil]
  | cons c s ih =>
    have hchar : Amid o input seen .ansiC false (text ++ ansiCChar c)
        (s.flatMap ansiCChar ++ rest) := by
      rw [List.flatMap_cons, List.append_assoc] at h
      rcases ansiCChar_shape c with ⟨x, l, hx, hline, hl⟩ | ⟨hx, hb, hq⟩
      · rw [hx] at h ⊢
        have hrun := literal_run (s := l) (h.backslash nofun hline).escaped
          (fun d hd => by simp [literal, hl d hd]) (by simp)
        rwa [List.append_cons, List.append_cons]
      · rw [hx] at h ⊢
        exact Amid.literal h (by simp [literal, hb, hq]) (.inl htext)
    rw [List.flatMap_cons, ← List.append_assoc]
    exact ih hchar (by simp [htext])

theorem double_body (h : Amid o input seen .double false text (s.flatMap doubleQuotedChar ++ rest))
    (htext : text ≠ []) :
    Amid o input seen .double false (text ++ s.flatMap doubleQuotedChar) rest := by
  induction s generalizing text with
  | nil => rwa [List.flatMap_nil, List.append_nil]
  | cons c s ih =>
    have hchar : Amid o input seen .double false (text ++ doubleQuotedChar c)
        (s.flatMap doubleQuotedChar ++ rest) := by
      rw [List.flatMap_cons, List.append_assoc] at h
      rw [doubleQuotedChar_eq] at h ⊢
      cases hc : isDoubleQuotedSpecial c with
      | true =>
        rw [hc, if_pos rfl] at h
        rw [if_pos rfl, List.append_cons]
        refine (h.backslash nofun ?_).escaped
        rintro rfl
        cases hc
      | false =>
        rw [hc, if_neg Bool.false_ne_true] at h
        rw [if_neg Bool.false_ne_true]
        refine Amid.literal h ?_ (.inl htext)
        obtain ⟨h₁, h₂, h₃, h₄⟩ := not_special hc
        simp [literal, h₁, h₂, h₃, h₄]
    rw [List.flatMap_cons, ← List.append_assoc]
    exact ih hchar (by simp [htext])

theorem literal_plain {c : Char} (h : (Unit.plain c).Ok) : literal .none c = true := by
  have hne : ∀ x, needsEscaping x = true → c ≠ x := fun x hx => ne_of_plain h.1 hx
  have htab : c ≠ '\t' := by
    rintro rfl
    cases h.2
  have hline : c ≠ '\n' := by
    rintro rfl
    cases h.2
  simp [literal, isQuotingChar, canStartOperator, isBlank, hne, needsEscaping, htab, hline]

theorem scan_unit (hu : u.Ok) (h : Amid o input seen .none false text (u.text ++ rest))
    (hcomment : text ≠ [] ∨ u ≠ .plain '#')
    (hsingle : ∀ s, u = .single s → text.getLast? ≠ some '$') :
    Amid o input seen .none false (text ++ u.text) rest := by
  cases u with
  | plain c =>
    exact Amid.literal h (literal_plain hu) (hcomment.imp_right fun hc he => hc (he ▸ rfl))
  | escaped c =>
    rw [Unit.text, List.append_cons]
    exact (h.backslash (by simp) hu).escaped
  | single s =>
    rw [Unit.text, List.cons_append, List.append_assoc] at h
    have hopen := h.quotes (.inl ⟨rfl, hsingle s rfl, rfl⟩)
    have hbody := literal_run hopen (fun c hc => by
      simpa [literal] using fun he : c = '\'' => hu (he ▸ hc)) (by simp)
    have hclose := hbody.closes (.inl ⟨rfl, .inl rfl⟩)
    rwa [List.append_assoc, List.append_assoc] at hclose
  | double s =>
    rw [Unit.text, List.cons_append, List.append_assoc] at h
    have hopen := h.quotes (.inr (.inr ⟨rfl, rfl⟩))
    have hclose := (double_body hopen (by simp)).closes (.inr ⟨rfl, rfl⟩)
    rwa [List.append_assoc, List.append_assoc] at hclose
  | ansi s =>
    rw [Unit.text, List.cons_append, List.cons_append, List.append_assoc] at h
    have hopen := h.dollar.quotes (.inr (.inl ⟨rfl, by simp, rfl⟩))
    have hclose := (ansi_body hopen (by simp)).closes (.inl ⟨rfl, .inr rfl⟩)
    rwa [List.append_assoc, List.append_assoc, List.append_assoc] at hclose

theorem last_unit (hu : u.Ok) (he : u ≠ .escaped '$') :
    (text ++ u.text).getLast? ≠ some '$' := by
  cases u with
  | plain c =>
    have hc : c ≠ '$' := ne_of_plain hu.1 (by decide)
    simpa [Unit.text] using hc
  | escaped c =>
    have hc : c ≠ '$' := fun h => he (h ▸ rfl)
    simpa [Unit.text] using hc
  | single s => simp [Unit.text, List.getLast?_append, List.getLast?_cons]
  | double s => simp [Unit.text, List.getLast?_append, List.getLast?_cons]
  | ansi s => simp [Unit.text, List.getLast?_append, List.getLast?_cons]

theorem scan_units (hus : ∀ u ∈ us, u.Ok)
    (h : Amid o input seen .none false text (textOf us ++ rest))
    (hcomment : text ≠ [] ∨ us.head? ≠ some (.plain '#'))
    (hsingle : (∀ s, .single s ∉ us) ∨ .escaped '$' ∉ us ∧ text.getLast? ≠ some '$') :
    Amid o input seen .none false (text ++ textOf us) rest := by
  induction us generalizing text with
  | nil => simpa [textOf] using h
  | cons u us ih =>
    obtain ⟨hu, hrest⟩ := List.forall_mem_cons.1 hus
    rw [textOf_cons, List.append_assoc] at h
    have hunit := scan_unit hu h
      (hcomment.imp_right fun hhead he => hhead (by rw [he, List.head?_cons])) fun s hs => by
        rcases hsingle with hnone | ⟨-, hlast⟩
        · exact absurd (hs ▸ List.mem_cons_self) (hnone s)
        · exact hlast
    rw [textOf_cons, ← List.append_assoc]
    refine ih hrest hunit (.inl ?_) (hsingle.imp ?_ ?_)
    · obtain ⟨c, s, hcs, -⟩ := head_unit hu []
      rw [textOf_cons] at hcs
      intro hnil
      rw [(List.append_eq_nil_iff.1 hnil).2] at hcs
      cases hcs
    · exact fun hnone s hs => hnone s (List.mem_cons_of_mem _ hs)
    · rintro ⟨hdollar, -⟩
      obtain ⟨hne, hnot⟩ := not_or.1 fun h => hdollar (List.mem_cons.2 h)
      exact ⟨hnot, last_unit hu fun he => hne he.symm⟩

theorem at_argument (o : TokenizerOptions) (text : List Char) :
    At o (':' :: ' ' :: text) [[':']] .none false [] text :=
  ((at_init o _).amid.literal rfl (.inr (by decide))).blank (List.cons_ne_nil _ _) |>.mono
    fun _ => AreWords.followed

/-- **Units are one word.** -/
theorem scans_units (hus : ∀ u ∈ us, u.Ok) (hne : textOf us ≠ [])
    (hcomment : us.head? ≠ some (.plain '#'))
    (hsingle : (∀ s, .single s ∉ us) ∨ .escaped '$' ∉ us) :
    Scans o (':' :: ' ' :: textOf us) [[':'], textOf us] := by
  have hstart : Amid o (':' :: ' ' :: textOf us) (AreWords [[':']]) .none false []
      (textOf us ++ []) := by
    rw [List.append_nil]
    exact at_argument o _
  exact ((scan_units hus hstart (.inr hcomment) (hsingle.imp_right fun h => ⟨h, nofun⟩)).ends
    hne).mono fun _ => AreWords.followed

theorem scans_comment (hs : '\n' ∉ s) :
    Scans o (':' :: ' ' :: '#' :: s) [[':']] :=
  ((at_argument o _).amid.comment hs).nothing

end

/-! ## Units of a text -/

def bareUnits (s : List Char) : List Unit :=
  s.map fun c => if needsEscaping c then .escaped c else .plain c

def singleUnits (s : List Char) : List Unit :=
  List.intercalate [.escaped '\''] ((s.splitOn '\'').map fun part =>
    if part = [] then [] else [.single part])

theorem textOf_bareUnits (s : List Char) :
    textOf (bareUnits s) = s.flatMap fun c => if needsEscaping c then ['\\', c] else [c] := by
  induction s with
  | nil => rfl
  | cons c s ih =>
    rw [bareUnits, List.map_cons, textOf_cons, ← bareUnits, ih, List.flatMap_cons]
    cases needsEscaping c <;> rfl

theorem valueOf_bareUnits (s : List Char) : valueOf (bareUnits s) = s := by
  induction s with
  | nil => rfl
  | cons c s ih =>
    rw [bareUnits, List.map_cons, valueOf_cons, ← bareUnits, ih]
    cases needsEscaping c <;> rfl

theorem bareUnits_ok (hs : s.any needsAnsiCQuoting = false) :
    ∀ u ∈ bareUnits s, u.Ok := by
  intro u hu
  obtain ⟨c, hc, rfl⟩ := List.mem_map.1 hu
  have hctl : needsAnsiCQuoting c = false := by
    rw [List.any_eq_false] at hs
    exact Bool.not_eq_true _ ▸ hs c hc
  cases hesc : needsEscaping c with
  | true =>
    rintro rfl
    cases hctl
  | false => exact ⟨hesc, hctl⟩

theorem flatMap_intercalate {α β : Type} (f : α → List β) (sep : List α) (ls : List (List α)) :
    (List.intercalate sep ls).flatMap f =
      List.intercalate (sep.flatMap f) (ls.map fun l => l.flatMap f) := by
  induction ls with
  | nil => rfl
  | cons l ls ih =>
    cases ls with
    | nil => simp
    | cons l' ls =>
      rw [List.intercalate_cons_cons, List.flatMap_append, List.flatMap_append, ih]
      exact List.intercalate_cons_cons.symm

theorem textOf_singleUnits (hs : s ≠ []) :
    textOf (singleUnits s) = singleQuote s := by
  rw [singleQuote, if_neg hs, textOf, singleUnits, flatMap_intercalate, List.map_map]
  congr 2
  funext part
  by_cases hpart : part = []
  · simp [hpart, quotedPart]
  · simp [hpart, quotedPart, Unit.text]

theorem valueOf_singleUnits (s : List Char) : valueOf (singleUnits s) = s := by
  rw [valueOf, singleUnits, flatMap_intercalate, List.map_map]
  have hmap : ((fun l => l.flatMap Unit.value) ∘ fun part : List Char =>
      if part = [] then [] else [Unit.single part]) = id := by
    funext part
    by_cases hpart : part = []
    · simp [hpart]
    · simp [hpart, Unit.value]
  rw [hmap, List.map_id]
  exact List.intercalate_splitOn _

theorem mem_intercalate {α : Type} {x : α} {sep : List α} {ls : List (List α)}
    (h : x ∈ List.intercalate sep ls) : x ∈ sep ∨ ∃ l ∈ ls, x ∈ l := by
  induction ls with
  | nil => cases h
  | cons l ls ih =>
    cases ls with
    | nil => exact .inr ⟨l, List.mem_cons_self, by simpa using h⟩
    | cons l' ls =>
      rw [List.intercalate_cons_cons, List.mem_append, List.mem_append] at h
      rcases h with (h | h) | h
      · exact .inr ⟨l, List.mem_cons_self, h⟩
      · exact .inl h
      · exact (ih h).imp_right fun ⟨m, hm, hx⟩ => ⟨m, List.mem_cons_of_mem _ hm, hx⟩

theorem not_mem_splitOn {q : Char} {part : List Char} (h : part ∈ s.splitOn q) : q ∉ part := by
  induction s generalizing part with
  | nil =>
    obtain rfl := List.mem_singleton.1 h
    exact nofun
  | cons c s ih =>
    rw [List.splitOn_cons_eq_if_modifyHead] at h
    split at h
    · rcases List.mem_cons.1 h with rfl | h
      · exact nofun
      · exact ih h
    · next hc =>
      cases hparts : s.splitOn q with
      | nil => exact absurd hparts (List.splitOn_ne_nil _ _)
      | cons first parts =>
        rw [hparts] at h ih
        rcases List.mem_cons.1 h with rfl | h
        · refine fun hq => (List.mem_cons.1 hq).elim (fun he => hc ?_) (ih List.mem_cons_self)
          rw [he, beq_self_eq_true]
        · exact ih (List.mem_cons_of_mem _ h)

theorem mem_singleUnits (hu : u ∈ singleUnits s) :
    u = .escaped '\'' ∨ ∃ part, u = .single part ∧ '\'' ∉ part := by
  rcases mem_intercalate hu with hu | ⟨l, hl, hu⟩
  · exact .inl (List.mem_singleton.1 hu)
  · right
    obtain ⟨part, hpart, rfl⟩ := List.mem_map.1 hl
    by_cases hnil : part = []
    · rw [if_pos hnil] at hu
      cases hu
    · rw [if_neg hnil] at hu
      exact ⟨part, List.mem_singleton.1 hu, not_mem_splitOn hpart⟩

end Quoting

/-! ## What a quoted text should do -/

def globChars : List Char := ['*', '?', '[', '(']

section

variable {P A B : Type} (R : WordRules P A B) (X : Expander P A) (st : X.State)
  (o : TokenizerOptions)

/-- A text reads back as one word, at the start of an argument. -/
structure ReadsBack (s text : List Char) : Prop where
  oneWord : Scans o (':' :: ' ' :: text) [[':'], text]
  noBraces : braceExpansions R text = .pieces [.text text]
  noTilde : tildeExprPrefix text = none
  expands : ∃ ps es f, unexpandedWord R text = .pieces ps ∧
    expandWordPieces X .strip ps st = (.ok es, st) ∧ (coalesceExpansions es).fields = [f] ∧
    charsOf f = s ∧ ∀ t, .splittable t ∈ f → ∀ c ∈ t, c ∉ globChars

end

def QuoteOptions.bare (q : QuoteOptions) (s : List Char) : Bool :=
  !(q.alwaysQuote || s.isEmpty || s.any needsEscaping) || q.preferredMode == .backslashEscape

/-- A tilde, a name of portable characters or `+` and digits, and then a slash, a colon or the
end. -/
def TildePrefixed (s : List Char) : Prop :=
  ∃ name rest, s = '~' :: (name ++ rest) ∧ IsTildeName name ∧
    ∀ c ∈ rest.head?, c = '/' ∨ c = ':'

/-- The texts that are quoted well: with control characters those in which no octal escape is
followed by an octal digit; of those without that are written without quotes, those that start
neither with a number sign nor with what a tilde expands. -/
def QuoteOptions.QuotesWell (q : QuoteOptions) (s : List Char) : Prop :=
  if s.any needsAnsiCQuoting then Apart s
  else q.bare s = true → s.head? ≠ some '#' ∧ ¬ TildePrefixed s

namespace Quoting

section

variable {P A B : Type} {R : WordRules P A B} {X : Expander P A} {st : X.State}
  {o : TokenizerOptions}

theorem readsBack_units (hus : ∀ u ∈ us, u.Ok)
    (hne : textOf us ≠ []) (hsingle : (∀ s, .single s ∉ us) ∨ .escaped '$' ∉ us)
    (hline : us.head? = some (.plain '#') → '\n' ∉ textOf us) :
    ReadsBack R X st o s (textOf us) ↔
      us.head? ≠ some (.plain '#') ∧ tildeExprPrefix (textOf us) = none ∧ valueOf us = s := by
  have hnil : us ≠ [] := fun h => hne (by rw [h]; rfl)
  have hpieces : tildeExprPrefix (textOf us) = none → ∃ ps es f,
      unexpandedWord R (textOf us) = .pieces ps ∧
      expandWordPieces X .strip ps st = (.ok es, st) ∧ (coalesceExpansions es).fields = [f] ∧
      Means f (valueOf us) := by
    intro ht
    obtain ⟨ps, hps, hspells, hps_ne⟩ := unexpandedWord_units R hus ht
    obtain ⟨es, fs, hes, hfields, hlen, hmeans⟩ := spells_expands X st hspells
    refine ⟨ps, es, fs.flatten, hps, hes, coalesce_fields ?_ hfields, hmeans⟩
    rintro rfl
    exact hps_ne hnil (List.eq_nil_of_length_eq_zero hlen.symm)
  constructor
  · intro h
    refine ⟨fun hhead => ?_, h.noTilde, ?_⟩
    · obtain ⟨us, rfl⟩ : ∃ t, us = .plain '#' :: t := by
        cases us with
        | nil => cases hhead
        | cons u us => exact ⟨us, by rw [Option.some.inj hhead]⟩
      have hcomment : Scans o (':' :: ' ' :: textOf (.plain '#' :: us)) [[':']] :=
        scans_comment fun hin => hline hhead (List.mem_cons_of_mem _ hin)
      have heq := congrArg List.length (h.oneWord.unique hcomment)
      cases heq
    · obtain ⟨ps, es, f, hps, hes, hf, hchars, -⟩ := h.expands
      obtain ⟨ps', es', f', hps', hes', hf', hmeans⟩ := hpieces h.noTilde
      obtain rfl : ps = ps' := Reading.pieces.inj (hps.symm.trans hps')
      obtain rfl : es = es' := by
        rw [hes] at hes'
        exact Except.ok.inj (Prod.mk.inj hes').1
      obtain rfl : f = f' := (List.cons.inj (hf.symm.trans hf')).1
      exact hmeans.chars.symm.trans hchars
  · rintro ⟨hhead, ht, rfl⟩
    obtain ⟨ps, es, f, hps, hes, hf, hmeans⟩ := hpieces ht
    refine ⟨scans_units hus hne hhead hsingle, braceExpansions_units R hus hnil, ht, ps, es, f, hps,
      hes, hf, hmeans.chars, fun t hin c hc hglob => ?_⟩
    refine absurd (hmeans.plain t hin c hc) ?_
    simp only [globChars, List.mem_cons, List.not_mem_nil, or_false] at hglob
    rcases hglob with rfl | rfl | rfl | rfl <;> decide

/-! ## Tildes -/

theorem head_bareUnits : (bareUnits s).head? = some (.plain '#') ↔ s.head? = some '#' := by
  cases s with
  | nil => simp [bareUnits]
  | cons c s =>
    rw [bareUnits, List.map_cons, List.head?_cons, List.head?_cons]
    cases hc : needsEscaping c with
    | true =>
      rw [if_pos rfl]
      constructor
      · rintro ⟨⟩
      · rintro ⟨⟩
        cases hc
    | false => simp

theorem bareUnits_append (s t : List Char) : bareUnits (s ++ t) = bareUnits s ++ bareUnits t :=
  List.map_append

theorem textOf_append (us vs : List Unit) : textOf (us ++ vs) = textOf us ++ textOf vs :=
  List.flatMap_append

theorem textOf_bareUnits_self (h : ∀ c ∈ s, needsEscaping c = false) :
    textOf (bareUnits s) = s := by
  induction s with
  | nil => rfl
  | cons c s ih =>
    obtain ⟨hc, hs⟩ := List.forall_mem_cons.1 h
    rw [bareUnits, List.map_cons, textOf_cons, ← bareUnits, ih hs, hc]
    rfl

theorem tildeName_plain {name : List Char} (h : IsTildeName name) :
    ∀ c ∈ name, needsEscaping c = false := by
  have hport : ∀ c, isPortableFilenameChar c = true → needsEscaping c = false := fun c hc => by
    by_contra hesc
    have hesc : needsEscaping c = true := by simpa using hesc
    have hall : ['(', ')', '[', ']', '\x7b', '\x7d', '$', '*', '?', '|', '&', ';', '<', '>', '`', '\\',
      '"', '!', '^', ',', ' ', '\''].all (fun c => !isPortableFilenameChar c) = true := by decide
    have hin := List.all_eq_true.1 hall c (List.contains_iff_mem.1 hesc)
    rw [hc] at hin
    cases hin
  rcases h with h | ⟨digits, rfl, h⟩
  · exact fun c hc => hport c (h c hc)
  · refine List.forall_mem_cons.2 ⟨rfl, fun c hc => hport c (portable_of_digit (h c hc))⟩

theorem bare_prefix {name rest : List Char} (hname : ∀ c ∈ name, needsEscaping c = false)
    (h : textOf (bareUnits s) = name ++ rest) :
    ∃ t, s = name ++ t ∧ textOf (bareUnits t) = rest := by
  induction name generalizing s with
  | nil => exact ⟨s, rfl, h⟩
  | cons c name ih =>
    obtain ⟨hc, hrest⟩ := List.forall_mem_cons.1 hname
    cases s with
    | nil => cases h
    | cons d s =>
      rw [bareUnits, List.map_cons, textOf_cons, ← bareUnits] at h
      cases hd : needsEscaping d with
      | true =>
        rw [hd, if_pos rfl] at h
        have : c = '\\' := (List.cons.inj h).1.symm
        rw [this] at hc
        cases hc
      | false =>
        rw [hd, if_neg Bool.false_ne_true] at h
        obtain ⟨hd, htail⟩ := List.cons.inj h
        obtain ⟨t, rfl, ht⟩ := ih hrest htail
        exact ⟨t, by rw [hd, List.cons_append], ht⟩

theorem terminator_bare {t : List Char} : tildeTerminator (textOf (bareUnits t)) = true ↔
    ∀ c ∈ t.head?, c = '/' ∨ c = ':' := by
  cases t with
  | nil => simp [bareUnits, textOf, tildeTerminator]
  | cons c t =>
    rw [bareUnits, List.map_cons, textOf_cons, ← bareUnits]
    cases hc : needsEscaping c with
    | true =>
      refine iff_of_false (fun h => by cases h) fun h => ?_
      rcases h c rfl with rfl | rfl <;> cases hc
    | false =>
      have hsemi : c ≠ ';' := ne_of_plain hc (by decide)
      have hbrace : c ≠ '\x7d' := ne_of_plain hc (by decide)
      simp [Unit.text, tildeTerminator, hsemi, hbrace]

/-- **Which bare texts a tilde expands in.** -/
theorem tilde_bare (s : List Char) :
    tildeExprPrefix (textOf (bareUnits s)) = none ↔ ¬ TildePrefixed s := by
  have hother : ∀ c t, c ≠ '~' → textOf (bareUnits s) = c :: t →
      tildeExprPrefix (textOf (bareUnits s)) = none := fun c t hc h => by
    rw [h]
    unfold tildeExprPrefix
    split
    · rename_i heq
      exact absurd (List.cons.inj heq).1 hc
    · rfl
  cases s with
  | nil => exact iff_of_true rfl fun ⟨_, _, h, _⟩ => nomatch h
  | cons c s =>
    by_cases hc : c = '~'
    · subst hc
      have htext : textOf (bareUnits ('~' :: s)) = '~' :: textOf (bareUnits s) := rfl
      rw [htext]
      change tildeExpression (textOf (bareUnits s)) = none ↔ _
      rw [← Option.not_isSome_iff_eq_none, tildeExpression_isSome_iff, not_iff_not]
      constructor
      · rintro ⟨name, rest, h, hname, hrest⟩
        obtain ⟨t, rfl, rfl⟩ := bare_prefix (tildeName_plain hname) h
        exact ⟨name, t, rfl, hname, terminator_bare.1 hrest⟩
      · rintro ⟨name, t, h, hname, hrest⟩
        obtain rfl := (List.cons.inj h).2
        refine ⟨name, textOf (bareUnits t), ?_, hname, terminator_bare.2 hrest⟩
        rw [bareUnits_append, textOf_append, textOf_bareUnits_self (tildeName_plain hname)]
    · refine iff_of_true ?_ fun ⟨_, _, h, _⟩ => hc (List.cons.inj h).1
      cases hesc : needsEscaping c with
      | true =>
        refine hother '\\' (c :: textOf (bareUnits s)) (by decide) ?_
        rw [bareUnits, List.map_cons, textOf_cons, hesc]
        rfl
      | false =>
        refine hother c (textOf (bareUnits s)) hc ?_
        rw [bareUnits, List.map_cons, textOf_cons, hesc]
        rfl

/-! ## The texts that are written -/

/-- Units that start with a quote. -/
structure Quoted (us : List Unit) : Prop where
  ok : ∀ u ∈ us, u.Ok
  dollar : .escaped '$' ∉ us
  starts : ∃ c s, textOf us = c :: s ∧ c ≠ '~'
  noPlain : us.head? ≠ some (.plain '#')

theorem tilde_of_head {c : Char} (hc : c ≠ '~') :
    tildeExprPrefix (c :: s) = none := by
  unfold tildeExprPrefix
  split
  · rename_i heq
    exact absurd (List.cons.inj heq).1 hc
  · rfl

theorem Quoted.readsBack (h : Quoted us) :
    ReadsBack R X st o (valueOf us) (textOf us) := by
  obtain ⟨c, s, htext, hc⟩ := h.starts
  refine (readsBack_units h.ok ?_ (.inr h.dollar) fun hhead => absurd hhead h.noPlain).2
    ⟨h.noPlain, ?_, rfl⟩
  · rw [htext]
    exact List.cons_ne_nil _ _
  · rw [htext, tilde_of_head hc]

theorem quoted_single (s : List Char) (hs : '\'' ∉ s) : Quoted [.single s] where
  ok u hu := by
    obtain rfl := List.mem_singleton.1 hu
    exact hs
  dollar h := by cases List.mem_singleton.1 h
  starts := ⟨'\'', _, textOf_cons _ _, by decide⟩
  noPlain h := by cases h

theorem quoted_double (s : List Char) : Quoted [.double s] where
  ok u hu := by
    obtain rfl := List.mem_singleton.1 hu
    trivial
  dollar h := by cases List.mem_singleton.1 h
  starts := ⟨'"', _, textOf_cons _ _, by decide⟩
  noPlain h := by cases h

theorem quoted_singleUnits (hs : s ≠ []) : Quoted (singleUnits s) := by
  have hok : ∀ u ∈ singleUnits s, u.Ok := fun u hu => by
    rcases mem_singleUnits hu with rfl | ⟨part, rfl, hpart⟩
    · exact fun h => by cases h
    · exact hpart
  have hne : singleUnits s ≠ [] := fun h => hs (by rw [← valueOf_singleUnits s, h]; rfl)
  obtain ⟨u, us, hus⟩ := List.exists_cons_of_ne_nil hne
  have hhead := mem_singleUnits (s := s) (u := u) (hus ▸ List.mem_cons_self)
  refine ⟨hok, fun h => ?_, ?_, ?_⟩
  · rcases mem_singleUnits h with h | ⟨part, h, -⟩ <;> cases h
  · rw [hus, textOf_cons]
    rcases hhead with rfl | ⟨part, rfl, -⟩
    · exact ⟨'\\', _, rfl, by decide⟩
    · exact ⟨'\'', _, rfl, by decide⟩
  · rw [hus]
    rcases hhead with rfl | ⟨part, rfl, -⟩ <;> exact nofun

theorem quote_cases {q : QuoteOptions} (hctl : s.any needsAnsiCQuoting = false) :
    (s ≠ [] ∧ q.bare s = true ∧ quote s q = textOf (bareUnits s)) ∨
    ((s = [] ∨ q.bare s = false) ∧ ∃ us, Quoted us ∧ quote s q = textOf us ∧ valueOf us = s) := by
  have hansi : (s.any fun c => needsAnsiCQuoting c &&
      (!q.avoidAnsiCQuotingNewline || c != '\n')) = false := by
    rw [List.any_eq_false] at hctl ⊢
    exact fun c hc h => hctl c hc (Bool.and_eq_true _ _ ▸ h).1
  unfold quote
  rw [hansi, if_neg Bool.false_ne_true]
  by_cases hnil : s = []
  · subst hnil
    refine .inr ⟨.inl rfl, ?_⟩
    rw [if_pos (by simp)]
    cases q.preferredMode with
    | backslashEscape => exact ⟨_, quoted_single [] nofun, rfl, rfl⟩
    | singleQuote => exact ⟨_, quoted_single [] nofun, rfl, rfl⟩
    | doubleQuote => exact ⟨_, quoted_double [], rfl, rfl⟩
  · cases hq : (q.alwaysQuote || s.isEmpty || s.any needsEscaping) with
    | false =>
      refine .inl ⟨hnil, by simp [QuoteOptions.bare, hq], ?_⟩
      rw [if_neg Bool.false_ne_true, textOf_bareUnits_self]
      intro c hc
      have hany := (Bool.or_eq_false_iff.1 hq).2
      rw [List.any_eq_false] at hany
      exact Bool.not_eq_true _ ▸ hany c hc
    | true =>
      rw [if_pos rfl]
      cases hmode : q.preferredMode with
      | backslashEscape =>
        refine .inl ⟨hnil, by simp [QuoteOptions.bare, hmode], ?_⟩
        dsimp only
        rw [backslashEscape, if_neg hnil, textOf_bareUnits]
      | singleQuote =>
        refine .inr ⟨.inr (by simp [QuoteOptions.bare, hq, hmode]), _, quoted_singleUnits hnil,
          (textOf_singleUnits hnil).symm, valueOf_singleUnits s⟩
      | doubleQuote =>
        refine .inr ⟨.inr (by simp [QuoteOptions.bare, hq, hmode]), _, quoted_double s, ?_, ?_⟩
        · exact (textOf_cons _ _).symm ▸ (List.append_nil _).symm
        · exact List.append_nil _

/-- **When a quoted text reads back.** -/
theorem readsBack_quote_iff {q : QuoteOptions} (hq : q.avoidAnsiCQuotingNewline = false)
    (hs : '\x00' ∉ s) :
    ReadsBack R X st o s (quote s q) ↔ q.QuotesWell s := by
  unfold QuoteOptions.QuotesWell
  cases hctl : s.any needsAnsiCQuoting with
  | true =>
    have hquote : quote s q = textOf [.ansi s] := by
      have hansi : (s.any fun c => needsAnsiCQuoting c &&
          (!q.avoidAnsiCQuotingNewline || c != '\n')) = true := by
        simpa [hq] using hctl
      unfold quote
      rw [hansi, if_pos rfl]
      exact (List.append_nil _).symm
    rw [if_pos rfl, hquote, readsBack_units, ← decoded_readBack_iff hs]
    · constructor
      · rintro ⟨-, -, h⟩
        exact (List.append_nil _).symm.trans h
      · exact fun h => ⟨nofun, rfl, (List.append_nil _).trans h⟩
    · intro u hu
      obtain rfl := List.mem_singleton.1 hu
      exact hs
    · exact List.cons_ne_nil _ _
    · exact .inl fun t h => by cases List.mem_singleton.1 h
    · rintro ⟨⟩
  | false =>
    rw [if_neg Bool.false_ne_true]
    rcases quote_cases (q := q) hctl with ⟨hnil, hbare, hquote⟩ | ⟨hbare, us, hus, hquote, hvalue⟩
    · rw [hquote, hbare, readsBack_units (bareUnits_ok hctl), Ne, head_bareUnits, tilde_bare,
        valueOf_bareUnits]
      · simp
      · intro h
        obtain ⟨c, t, rfl⟩ := List.exists_cons_of_ne_nil hnil
        rw [bareUnits, List.map_cons, textOf_cons] at h
        cases hc : needsEscaping c <;> rw [hc] at h <;> cases h
      · left
        intro t h
        obtain ⟨c, -, hc⟩ := List.mem_map.1 h
        cases hesc : needsEscaping c <;> rw [hesc] at hc <;> cases hc
      · intro _ h
        rw [textOf_bareUnits, List.mem_flatMap] at h
        obtain ⟨c, hc, h⟩ := h
        rw [List.any_eq_false] at hctl
        have : c = '\n' := by
          cases hesc : needsEscaping c <;> rw [hesc] at h <;> simpa [eq_comm] using h
        exact hctl c hc (this ▸ rfl)
    · rw [hquote]
      refine iff_of_true (hvalue ▸ hus.readsBack) fun h => ?_
      rcases hbare with rfl | hbare
      · exact ⟨nofun, fun ⟨_, _, h, _⟩ => nomatch h⟩
      · rw [hbare] at h
        cases h

end

end Quoting

/-! ## Round trips -/

/-- The options of `force_quote` and of `quote_if_needed`. -/
def QuoteOptions.of (alwaysQuote : Bool) (mode : QuoteMode) : QuoteOptions :=
  { alwaysQuote := alwaysQuote, preferredMode := mode }

/-- **Round trips.** A text without NUL that is quoted reads back just if it is quoted well, and
its bytes are what is expanded between ANSI-C quotes just if no octal digit follows an octal
escape. -/
theorem quoting_roundTrip_iff {P A B : Type} (R : WordRules P A B) (X : Expander P A) (st : X.State)
    (o : TokenizerOptions) (s : List Char) (hs : '\x00' ∉ s) (mode : QuoteMode) :
    (ReadsBack R X st o s (forceQuote s mode) ↔ (QuoteOptions.of true mode).QuotesWell s) ∧
    (ReadsBack R X st o s (quoteIfNeeded s mode) ↔ (QuoteOptions.of false mode).QuotesWell s) ∧
    (expandBackslashEscapes (s.flatMap ansiCChar) .ansiCQuotes =
      .ok (s.flatMap String.utf8EncodeChar, true) ↔ Apart s) := by
  refine ⟨Quoting.readsBack_quote_iff rfl hs, Quoting.readsBack_quote_iff rfl hs, ?_⟩
  rw [expand_body hs, ← readBack_eq_iff hs]
  constructor
  · intro h
    exact (Prod.mk.inj (Except.ok.inj h)).1
  · intro h
    rw [h]

section Fixture

def noWordRules : WordRules Unit Empty Empty where
  dollar := ⟨fun _ => none, nofun⟩
  brace := ⟨fun _ => none, nofun⟩

/-- `it's` between single quotes. -/
theorem quoting_its : ReadsBack noWordRules (oneParameter " " "") () defaultOptions "it's".toList
    (forceQuote "it's".toList .singleQuote) :=
  (quoting_roundTrip_iff noWordRules (oneParameter " " "") () defaultOptions "it's".toList (by decide)
    .singleQuote).1.2 (by
      rw [QuoteOptions.QuotesWell, if_neg (by decide)]
      exact nofun)

/-- `#a` is a comment, a tilde is expanded, and a digit behind an octal escape is read with it. -/
theorem not_quoting_roundTrip :
    ¬ ReadsBack noWordRules (oneParameter " " "") () defaultOptions "#a".toList
      (quoteIfNeeded "#a".toList .singleQuote) ∧
    ¬ ReadsBack noWordRules (oneParameter " " "") () defaultOptions ['~']
      (forceQuote ['~'] .backslashEscape) ∧
    expandBackslashEscapes (['\x01', '2'].flatMap ansiCChar) .ansiCQuotes ≠
      .ok (['\x01', '2'].flatMap String.utf8EncodeChar, true) := by
  refine ⟨fun h => ?_, fun h => (nomatch h.noTilde), fun h => ?_⟩
  · have hwell := (Quoting.readsBack_quote_iff rfl (by decide)).1 h
    rw [QuoteOptions.QuotesWell, if_neg (by decide)] at hwell
    exact (hwell rfl).1 rfl
  · rw [expand_body (by decide)] at h
    have hapart := (readBack_eq_iff (by decide)).1 (Prod.mk.inj (Except.ok.inj h)).1
    exact absurd (hapart [] '\x01' '2' [] rfl rfl) (by decide)

end Fixture

end Seahaven.Shell
