import Seahaven.Parser.Panics
import Mathlib.Data.List.TakeWhile

/-!
# How a word is scanned

Words and parentheses outside constructs and here-documents, character by character.

1. `Amid` is a state of a run in the middle of a word, with something known of the tokens behind it.
   Each character takes it one round further. `At` is such a state behind words.
2. `EndsWith` is what a run comes to. `Scans` are the words an input is read into, of which there
   is one answer at most (`Scans.unique`).
-/

namespace Seahaven.Parser

open TokenParseState

def Token.asWord : Token → Option (List Char)
  | .word s _ => some s
  | .operator _ _ => none

/-- The kinds of quotes. -/
inductive QuoteKind
  | none
  | single
  | ansiC
  | double
  deriving DecidableEq

def QuoteMode.kind : QuoteMode → QuoteKind
  | .none => .none
  | .single _ => .single
  | .ansiC _ => .ansiC
  | .double _ => .double

/-- In a word: between which quotes, whether behind a backslash, what it is so far, and what is
left. -/
structure Within (st : TokenParseState) (tz : Tokenizer) (q : QuoteKind) (esc : Bool)
    (text chars : List Char) : Prop where
  chars_eq : tz.chars = chars
  here : tz.cross.hereState = .none
  queued : tz.cross.queuedTokens = []
  text_eq : st.tokenSoFar = text
  isWord : st.tokenIsOperator = false
  escape : st.inEscape = esc
  quote : st.quoteMode.kind = q

/-- A run comes to a state in a word, with tokens behind it of which something is known. -/
def Amid (o : TokenizerOptions) (input : List Char) (seen : List Token → Prop) (q : QuoteKind)
    (esc : Bool) (text chars : List Char) : Prop :=
  ∃ st tz tokens, Machine.Reaches o input ⟨tz, tokens, [], .call ⟨st, none, false⟩⟩ ∧
    seen tokens ∧ Within st tz q esc text chars

def At (o : TokenizerOptions) (input : List Char) (words : List (List Char)) (q : QuoteKind)
    (esc : Bool) (text chars : List Char) : Prop :=
  ∃ st tz tokens, Machine.Reaches o input ⟨tz, tokens, [], .call ⟨st, none, false⟩⟩ ∧
    tokens.map Token.asWord = words.map some ∧ Within st tz q esc text chars

variable {o : TokenizerOptions} {input : List Char} {words : List (List Char)}
  {seen seen' : List Token → Prop} {text chars : List Char} {c : Char} {q q' : QuoteKind}
  {esc esc' : Bool}
  {st st' : TokenParseState} {tz : Tokenizer}

/-! ## One character -/

theorem Within.consume (h : Within st tz q esc text (c :: chars))
    (htext : st'.tokenSoFar = st.tokenSoFar ++ [c])
    (hword : st'.tokenIsOperator = st.tokenIsOperator)
    (hesc : st'.inEscape = esc') (hquote : st'.quoteMode.kind = q') :
    Within st' (tz.advance 1) q' esc' (text ++ [c]) chars where
  chars_eq := by rw [Tokenizer.advance_chars, h.chars_eq, List.drop_one, List.tail_cons]
  here := h.here
  queued := h.queued
  text_eq := by rw [htext, h.text_eq]
  isWord := hword.trans h.isWord
  escape := hesc
  quote := hquote

theorem Amid.round {text' chars' : List Char} (h : Amid o input seen q esc text (c :: chars))
    (hround : ∀ st tz, Within st tz q esc text (c :: chars) →
      ∃ st' tz', charRound o ⟨st, none, false⟩ tz c = .more st' tz' ∧
        Within st' tz' q' esc' text' chars') :
    Amid o input seen q' esc' text' chars' := by
  obtain ⟨st, tz, tokens, hreach, htokens, hwithin⟩ := h
  obtain ⟨st', tz', hcall, hwithin'⟩ := hround st tz hwithin
  refine ⟨st', tz', tokens, hreach.tail ?_, htokens, hwithin'⟩
  have hnext : nextTokenRound o ⟨st, none, false⟩ tz = .more st' tz' := by
    rw [nextTokenRound, hwithin.queued, hwithin.chars_eq]
    exact hcall
  change Machine.stepCall o _ _ = _
  rw [Machine.stepCall, hnext]

def literal : QuoteKind → Char → Bool
  | .none, c => !isQuotingChar c && c != '$' && c != '`' && !canStartOperator c && !isBlank c
  | .single, c => c != '\''
  | .ansiC, c => c != '\'' && c != '\\'
  | .double, c => c != '$' && c != '`' && c != '"' && c != '\\'

theorem charRound_word (h : Within st tz q esc text (c :: chars)) :
    charRound o ⟨st, none, false⟩ tz c =
      if st.newlyAffectsQuoting c then quotingRound st tz c
      else if st.inEscape = false ∧ st.inSingleQuotes ∧ c = '\'' then
        .more { st.append [c] with quoteMode := .none } (tz.advance 1)
      else if st.inEscape = false ∧ st.inDoubleQuotes ∧ c = '"' then
        .more { st.append [c] with quoteMode := .none } (tz.advance 1)
      else if st.inEscape then .more { st.append [c] with inEscape := false } (tz.advance 1)
      else if (st.unquoted ∨ st.inDoubleQuotes) ∧ c = '$' then dollarRound st tz
      else if (st.unquoted ∨ st.inDoubleQuotes) ∧ c = '`' then backquoteRound st tz
      else if c = '(' ∧ o.enableExtendedGlobbing ∧ st.unquoted ∧
          st.tokenSoFar.getLast?.any canStartExtglob then
        extglobRound st tz
      else if st.unquoted ∧ canStartOperator c then
        if st.startedToken then .ofDelimited tz (st.delimitCurrentToken .operatorStart tz.cross)
        else .more { st.append [c] with tokenIsOperator := true } (tz.advance 1)
      else if st.unquoted ∧ isBlank c then blankRound ⟨st, none, false⟩ tz c
      else if st.startedToken then .more (st.append [c]) (tz.advance 1)
      else if c = '#' then .more st (tz.advance (tz.chars.takeWhile (· ≠ '\n')).length)
      else .more (st.append [c]) (tz.advance 1) := by
  unfold charRound
  dsimp only
  rw [if_neg (by rw [h.here]; exact nofun), if_neg (fun h => nomatch h.2),
    if_neg (by rw [h.isWord]; exact Bool.false_ne_true)]
  simp only [reduceCtorEq, or_false]

theorem Amid.literal (h : Amid o input seen q false text (c :: chars)) (hc : literal q c = true)
    (hcomment : text ≠ [] ∨ c ≠ '#') : Amid o input seen q false (text ++ [c]) chars := by
  refine h.round fun st tz hw => ⟨st.append [c], tz.advance 1, ?_, hw.consume rfl rfl hw.escape
    hw.quote⟩
  have hstarted : st.startedToken = false → c ≠ '#' := fun hs =>
    hcomment.resolve_left fun htext => by
    rw [startedToken, hw.text_eq] at hs
    cases text with
    | nil => exact htext rfl
    | cons x t => cases hs
  have hstart : (if st.startedToken = true then Round.more (st.append [c]) (tz.advance 1)
      else if c = '#' then .more st (tz.advance (tz.chars.takeWhile (· ≠ '\n')).length)
      else .more (st.append [c]) (tz.advance 1)) = .more (st.append [c]) (tz.advance 1) := by
    by_cases hs : st.startedToken = true
    · rw [if_pos hs]
    · rw [if_neg hs, if_neg (hstarted (Bool.not_eq_true _ ▸ hs))]
  have hesc := hw.escape
  have hquote := hw.quote
  rw [charRound_word hw, hstart]
  cases hmode : st.quoteMode with
  | none =>
    obtain rfl : .none = q := by rw [← hquote, hmode]; rfl
    simp only [Parser.literal, Bool.and_eq_true, Bool.not_eq_true', bne_iff_ne] at hc
    obtain ⟨⟨⟨⟨hq, hdollar⟩, hback⟩, hop⟩, hblank⟩ := hc
    have hparen : c ≠ '(' := fun h => by
      rw [h] at hop
      cases hop
    simp [newlyAffectsQuoting, unquoted, inSingleQuotes, inDoubleQuotes, hesc, hmode, hq, hdollar,
      hback, hop, hblank, hparen]
  | single p =>
    obtain rfl : .single = q := by rw [← hquote, hmode]; rfl
    have hne : c ≠ '\'' := by simpa [Parser.literal] using hc
    simp [newlyAffectsQuoting, unquoted, inSingleQuotes, inDoubleQuotes, hesc, hmode, hne]
  | ansiC p =>
    obtain rfl : .ansiC = q := by rw [← hquote, hmode]; rfl
    have hne : c ≠ '\'' ∧ c ≠ '\\' := by simpa [Parser.literal] using hc
    simp [newlyAffectsQuoting, unquoted, inSingleQuotes, inDoubleQuotes, hesc, hmode, hne.1, hne.2]
  | double p =>
    obtain rfl : .double = q := by rw [← hquote, hmode]; rfl
    have hne : ((c ≠ '$' ∧ c ≠ '`') ∧ c ≠ '"') ∧ c ≠ '\\' := by simpa [Parser.literal] using hc
    simp [newlyAffectsQuoting, unquoted, inSingleQuotes, inDoubleQuotes, hesc, hmode, hne.1.1.1,
      hne.1.1.2, hne.1.2, hne.2]

theorem Amid.backslash {x : Char} (h : Amid o input seen q false text ('\\' :: x :: chars))
    (hq : q ≠ .single) (hx : x ≠ '\n') :
    Amid o input seen q true (text ++ ['\\']) (x :: chars) := by
  refine h.round fun st tz hw => ⟨{ st.append ['\\'] with inEscape := true }, tz.advance 1, ?_,
    hw.consume rfl rfl rfl hw.quote⟩
  have haffects : st.newlyAffectsQuoting '\\' = true := by
    unfold newlyAffectsQuoting
    rw [hw.escape]
    cases hmode : st.quoteMode with
    | single p => exact absurd (by rw [← hw.quote, hmode]; rfl) hq
    | none => rfl
    | ansiC p => rfl
    | double p => rfl
  rw [charRound_word hw, if_pos haffects, quotingRound, if_pos rfl, if_neg]
  rw [hw.chars_eq]
  exact fun h => hx (Option.some.inj h)

theorem Amid.escaped (h : Amid o input seen q true text (c :: chars)) :
    Amid o input seen q false (text ++ [c]) chars := by
  refine h.round fun st tz hw => ⟨{ st.append [c] with inEscape := false }, tz.advance 1, ?_,
    hw.consume rfl rfl rfl hw.quote⟩
  rw [charRound_word hw]
  simp [newlyAffectsQuoting, hw.escape]

theorem Within.unquoted (h : Within st tz .none false text chars) : st.quoteMode = .none := by
  have hquote := h.quote
  cases hmode : st.quoteMode with
  | none => rfl
  | _ =>
    rw [hmode] at hquote
    cases hquote

theorem Amid.quotes {k : QuoteKind} (h : Amid o input seen .none false text (c :: chars))
    (hk : c = '\'' ∧ text.getLast? ≠ some '$' ∧ k = .single ∨
      c = '\'' ∧ text.getLast? = some '$' ∧ k = .ansiC ∨ c = '"' ∧ k = .double) :
    Amid o input seen k false (text ++ [c]) chars := by
  have haffects : ∀ st tz, Within st tz .none false text (c :: chars) →
      st.newlyAffectsQuoting c = true := fun st tz hw => by
    rw [newlyAffectsQuoting, hw.escape, hw.unquoted]
    rcases hk with ⟨rfl, -⟩ | ⟨rfl, -⟩ | ⟨rfl, -⟩ <;> rfl
  rcases hk with ⟨rfl, hlast, rfl⟩ | ⟨rfl, hlast, rfl⟩ | ⟨rfl, rfl⟩
  · refine h.round fun st tz hw => ⟨{ st.append ['\''] with
      quoteMode := .single tz.cross.cursor }, tz.advance 1, ?_, hw.consume rfl rfl hw.escape rfl⟩
    rw [charRound_word hw, if_pos (haffects st tz hw), quotingRound, if_neg (by decide),
      if_pos rfl, hw.text_eq, if_neg hlast]
  · refine h.round fun st tz hw => ⟨{ st.append ['\''] with
      quoteMode := .ansiC tz.cross.cursor }, tz.advance 1, ?_, hw.consume rfl rfl hw.escape rfl⟩
    rw [charRound_word hw, if_pos (haffects st tz hw), quotingRound, if_neg (by decide),
      if_pos rfl, hw.text_eq, if_pos hlast]
  · refine h.round fun st tz hw => ⟨{ st.append ['"'] with
      quoteMode := .double tz.cross.cursor }, tz.advance 1, ?_, hw.consume rfl rfl hw.escape rfl⟩
    rw [charRound_word hw, if_pos (haffects st tz hw), quotingRound, if_neg (by decide),
      if_neg (by decide)]

theorem Amid.closes (h : Amid o input seen q false text (c :: chars))
    (hq : c = '\'' ∧ (q = .single ∨ q = .ansiC) ∨ c = '"' ∧ q = .double) :
    Amid o input seen .none false (text ++ [c]) chars := by
  refine h.round fun st tz hw => ⟨{ st.append [c] with quoteMode := .none }, tz.advance 1, ?_,
    hw.consume rfl rfl hw.escape rfl⟩
  rw [charRound_word hw]
  have hquote := hw.quote
  cases hmode : st.quoteMode <;> rw [hmode] at hquote <;> subst hquote <;>
    rcases hq with ⟨rfl, hq⟩ | ⟨rfl, hq⟩ <;>
    simp [QuoteMode.kind] at hq <;>
    simp [newlyAffectsQuoting, inSingleQuotes, inDoubleQuotes, hw.escape, hmode]

theorem Amid.dollar (h : Amid o input seen .none false text ('$' :: '\'' :: chars)) :
    Amid o input seen .none false (text ++ ['$']) ('\'' :: chars) := by
  refine h.round fun st tz hw => ⟨st.append ['$'], tz.advance 1, ?_,
    hw.consume rfl rfl hw.escape hw.quote⟩
  rw [charRound_word hw]
  have hmode := hw.unquoted
  simp [newlyAffectsQuoting, inSingleQuotes, inDoubleQuotes, unquoted, hw.escape, hmode,
    isQuotingChar, dollarRound, hw.chars_eq]

/-! ## Tokens -/

def EndsWith (o : TokenizerOptions) (input : List Char) (seen : List Token → Prop) : Prop :=
  ∃ n tokens, uncachedTokenizeStr o input n = some (.ok tokens) ∧ seen tokens

def Followed (seen : List Token → Prop) (token : SourceSpan → Token) (tokens : List Token) : Prop :=
  ∃ before span, tokens = before ++ [token span] ∧ seen before

theorem Amid.mono {esc : Bool} (h : Amid o input seen q esc text chars)
    (hseen : ∀ tokens, seen tokens → seen' tokens) : Amid o input seen' q esc text chars := by
  obtain ⟨st, tz, tokens, hreach, htokens, hw⟩ := h
  exact ⟨st, tz, tokens, hreach, hseen tokens htokens, hw⟩

theorem EndsWith.mono (h : EndsWith o input seen) (hseen : ∀ tokens, seen tokens → seen' tokens) :
    EndsWith o input seen' := by
  obtain ⟨n, tokens, hn, htokens⟩ := h
  exact ⟨n, tokens, hn, hseen tokens htokens⟩

theorem tokens_unique {n n' : Nat} {tokens tokens' : List Token}
    (h : uncachedTokenizeStr o input n = some (.ok tokens))
    (h' : uncachedTokenizeStr o input n' = some (.ok tokens')) : tokens = tokens' := by
  have hfinished : ∀ {n tokens}, uncachedTokenizeStr o input n = some (.ok tokens) →
      Machine.run o n (.init input) = .finished tokens := fun {n tokens} h => by
    unfold uncachedTokenizeStr at h
    split at h
    · cases h
    · cases h
      assumption
    · cases h
  have heq := Machine.run_unique (hfinished h) (hfinished h') (Machine.finished_ne_next _)
    (Machine.finished_ne_next _)
  cases heq
  rfl

theorem amid_init (o : TokenizerOptions) (input : List Char) :
    Amid o input (· = []) .none false [] input :=
  ⟨.new ⟨0, 1, 1⟩, (Machine.init input).tz, [], .single rfl, rfl, rfl, rfl, rfl, rfl, rfl, rfl, rfl⟩

theorem reaches_token {r : TokenizeResult} {tokens : List Token} {tz' : Tokenizer} {t : Token}
    (hreach : Machine.Reaches o input ⟨tz, tokens, [], .call ⟨st, none, false⟩⟩)
    (hround : nextTokenRound o ⟨st, none, false⟩ tz = .done r tz') (ht : r.token = some t) :
    Machine.Reaches o input
      ⟨tz', tokens ++ [t], [], .call ⟨.new tz'.cross.cursor, none, false⟩⟩ := by
  have hcall : Machine.Next o ⟨tz, tokens, [], .call ⟨st, none, false⟩⟩
      ⟨tz', tokens, [], .result r⟩ := by
    change Machine.stepCall o _ _ = _
    rw [Machine.stepCall, hround]
  have hresult : Machine.Next o ⟨tz', tokens, [], .result r⟩ ⟨tz', tokens ++ [t], [], .loop⟩ := by
    change Machine.stepResult ⟨tz', tokens, [], .result r⟩ r = _
    rw [Machine.stepResult]
    dsimp only
    rw [ht]
  exact ((Relation.ReflTransGen.tail hreach hcall).tail hresult).tail rfl

theorem amid_token {token : SourceSpan → Token} {tokens : List Token} {reason : TokenEndReason}
    {span : SourceSpan} {tz' : Tokenizer}
    (hreach : Machine.Reaches o input ⟨tz, tokens, [], .call ⟨st, none, false⟩⟩)
    (hseen : seen tokens)
    (hround : nextTokenRound o ⟨st, none, false⟩ tz = .done ⟨reason, some (token span)⟩ tz')
    (hchars : tz'.chars = chars) (hhere : tz'.cross.hereState = .none)
    (hqueued : tz'.cross.queuedTokens = []) :
    Amid o input (Followed seen token) .none false [] chars :=
  ⟨_, _, _, reaches_token hreach hround rfl, ⟨tokens, span, rfl, hseen⟩, hchars, hhere, hqueued,
    rfl, rfl, rfl, rfl⟩

theorem delimitCurrentToken_started {cross : CrossTokenParseState}
    (hstarted : st.startedToken = true) (hhere : cross.hereState = .none)
    (reason : TokenEndReason) :
    st.delimitCurrentToken reason cross =
      .ok (some ⟨reason, some (st.pop cross.cursor)⟩, .new cross.cursor, cross) := by
  rw [delimitCurrentToken, if_neg (fun hs => by rw [hstarted] at hs; cases hs.1), hhere]

theorem startedToken_of_ne (h : st.tokenSoFar ≠ []) : st.startedToken = true := by
  rw [startedToken]
  cases htext : st.tokenSoFar with
  | nil => exact absurd htext h
  | cons c t => rfl

/-! ## Words -/

def Scans (o : TokenizerOptions) (input : List Char) (words : List (List Char)) : Prop :=
  ∃ n tokens, uncachedTokenizeStr o input n = some (.ok tokens) ∧
    tokens.map Token.asWord = words.map some

theorem Scans.unique {words' : List (List Char)} (h : Scans o input words)
    (h' : Scans o input words') : words = words' := by
  obtain ⟨n, tokens, hn, htokens⟩ := h
  obtain ⟨n', tokens', hn', htokens'⟩ := h'
  obtain rfl := tokens_unique hn hn'
  have hmap : words.map some = words'.map some := htokens.symm.trans htokens'
  exact (List.map_inj_right fun _ _ => Option.some.inj).1 hmap

def AreWords (words : List (List Char)) (tokens : List Token) : Prop :=
  tokens.map Token.asWord = words.map some

theorem AreWords.followed {tokens : List Token}
    (h : Followed (AreWords words) (.word text) tokens) : AreWords (words ++ [text]) tokens := by
  obtain ⟨before, span, rfl, hbefore⟩ := h
  rw [AreWords, List.map_append, List.map_append, hbefore]
  rfl

theorem At.amid {esc : Bool} (h : At o input words q esc text chars) :
    Amid o input (AreWords words) q esc text chars := h

theorem at_init (o : TokenizerOptions) (input : List Char) : At o input [] .none false [] input :=
  (amid_init o input).mono fun _ htokens => congrArg (List.map Token.asWord) htokens

theorem Within.delimited (h : Within st tz .none false text chars) (htext : text ≠ [])
    (reason : TokenEndReason) : st.delimitCurrentToken reason tz.cross =
      .ok (some ⟨reason, some (.word text ⟨st.startPosition, tz.cross.cursor⟩)⟩,
        .new tz.cross.cursor, tz.cross) := by
  rw [delimitCurrentToken_started (startedToken_of_ne (h.text_eq ▸ htext)) h.here, pop, h.isWord,
    h.text_eq]
  rfl

theorem Within.started (h : Within st tz q esc text chars) (htext : text ≠ []) :
    st.startedToken = true := startedToken_of_ne (h.text_eq ▸ htext)

theorem Amid.blank (h : Amid o input seen .none false text (' ' :: chars)) (htext : text ≠ []) :
    Amid o input (Followed seen (.word text)) .none false [] chars := by
  obtain ⟨st, tz, tokens, hreach, htokens, hw⟩ := h
  have hround : nextTokenRound o ⟨st, none, false⟩ tz =
      .done ⟨.nonNewLineBlank, some (.word text ⟨st.startPosition, tz.cross.cursor⟩)⟩
        (tz.advance 1) := by
    rw [nextTokenRound, hw.queued, hw.chars_eq]
    dsimp only
    rw [charRound_word hw]
    simp only [newlyAffectsQuoting, unquoted, inSingleQuotes, inDoubleQuotes, hw.escape,
      hw.unquoted, isQuotingChar, canStartOperator, isBlank]
    simp [blankRound, hw.started htext, hw.delimited htext, Round.ofDelimited]
  refine amid_token hreach htokens hround ?_ hw.here hw.queued
  rw [Tokenizer.advance_chars, hw.chars_eq]
  rfl

theorem Amid.nothing (h : Amid o input seen .none false [] []) : EndsWith o input seen := by
  obtain ⟨st, tz, tokens, hreach, htokens, hw⟩ := h
  have hround : nextTokenRound o ⟨st, none, false⟩ tz = .done ⟨.endOfInput, none⟩ tz := by
    have hstarted : st.startedToken = false := by
      rw [startedToken, hw.text_eq]
      rfl
    rw [nextTokenRound, hw.queued, hw.chars_eq]
    dsimp only
    rw [endOfInputRound, hw.escape, hw.unquoted, hw.here]
    dsimp only
    rw [if_neg Bool.false_ne_true, if_pos rfl, delimitCurrentToken, if_pos ⟨hstarted, nofun⟩]
    rfl
  have hcall : Machine.Next o ⟨tz, tokens, [], .call ⟨st, none, false⟩⟩
      ⟨tz, tokens, [], .result ⟨.endOfInput, none⟩⟩ := by
    change Machine.stepCall o _ _ = _
    rw [Machine.stepCall, hround]
  obtain ⟨n, hn⟩ := Machine.Reaches.run (Relation.ReflTransGen.tail hreach hcall)
  refine ⟨n + 1, tokens, ?_, htokens⟩
  rw [uncachedTokenizeStr, Machine.run_add o n 1 hn]
  rfl

theorem Amid.ends (h : Amid o input seen .none false text []) (htext : text ≠ []) :
    EndsWith o input (Followed seen (.word text)) := by
  obtain ⟨st, tz, tokens, hreach, htokens, hw⟩ := h
  have hround : nextTokenRound o ⟨st, none, false⟩ tz =
      .done ⟨.endOfInput, some (.word text ⟨st.startPosition, tz.cross.cursor⟩)⟩ tz := by
    rw [nextTokenRound, hw.queued, hw.chars_eq]
    dsimp only
    rw [endOfInputRound, hw.escape, hw.unquoted, hw.here]
    dsimp only
    rw [if_neg Bool.false_ne_true, if_pos rfl, hw.delimited htext]
    rfl
  exact (amid_token hreach htokens hround hw.chars_eq hw.here hw.queued).nothing

theorem Amid.comment (h : Amid o input seen .none false [] ('#' :: chars)) (hline : '\n' ∉ chars) :
    Amid o input seen .none false [] [] := by
  have hall : ('#' :: chars).takeWhile (· ≠ '\n') = '#' :: chars := by
    rw [List.takeWhile_eq_self_iff]
    intro c hc
    rcases List.mem_cons.1 hc with rfl | hc
    · decide
    · simpa using fun h : c = '\n' => hline (h ▸ hc)
  refine h.round fun st tz hw => ⟨st, tz.advance (tz.chars.takeWhile (· ≠ '\n')).length, ?_, ?_,
    hw.here, hw.queued, hw.text_eq, hw.isWord, hw.escape, hw.quote⟩
  · rw [charRound_word hw]
    have hstarted : st.startedToken = false := by
      rw [startedToken, hw.text_eq]
      rfl
    simp [newlyAffectsQuoting, unquoted, inSingleQuotes, inDoubleQuotes, hw.escape, hw.unquoted,
      isQuotingChar, canStartOperator, isBlank, hstarted]
  · rw [Tokenizer.advance_chars, hw.chars_eq, hall, List.drop_length]

/-! ## Parentheses -/

theorem isOperator_pair {c : Char} (hc : c = '(' ∨ c = ')') (o : TokenizerOptions) (d : Char) :
    isOperator o [c, d] = false := by
  rcases hc with rfl | rfl <;> simp [isOperator]

theorem operatorEnds_spec (st : TokenParseState) (htext : st.tokenSoFar ≠ ['<', '<'])
    (htabs : st.tokenSoFar ≠ ['<', '<', '-']) (tz : Tokenizer) (c : Char) :
    (operatorEnds st tz c).chars = tz.chars ∧
      (operatorEnds st tz c).cross.hereState = tz.cross.hereState ∧
      (operatorEnds st tz c).cross.queuedTokens = tz.cross.queuedTokens := by
  have hhere : st.isSpecificOperator ['<', '<'] = false := by simp [isSpecificOperator, htext]
  have hdash : st.isSpecificOperator ['<', '<', '-'] = false := by simp [isSpecificOperator, htabs]
  unfold operatorEnds
  rw [hhere, hdash, if_neg Bool.false_ne_true, if_neg Bool.false_ne_true]
  split_ifs <;> exact ⟨rfl, rfl, rfl⟩

theorem Within.opens (h : Within st tz .none false [] (c :: chars)) (hc : c = '(' ∨ c = ')') :
    nextTokenRound o ⟨st, none, false⟩ tz =
      .more { st.append [c] with tokenIsOperator := true } (tz.advance 1) := by
  have hstarted : st.startedToken = false := by
    rw [startedToken, h.text_eq]
    rfl
  rw [nextTokenRound, h.queued, h.chars_eq]
  dsimp only
  rw [charRound_word h]
  rcases hc with rfl | rfl <;>
    simp [newlyAffectsQuoting, TokenParseState.unquoted, inSingleQuotes, inDoubleQuotes, h.escape,
      h.unquoted, isQuotingChar, canStartOperator, hstarted, h.text_eq]

theorem paren_ends (o : TokenizerOptions) (st : TokenParseState) (tz : Tokenizer)
    (htext : st.tokenSoFar = [c]) (hop : st.tokenIsOperator = true)
    (hesc : st.inEscape = false) (hmode : st.quoteMode = .none) (hc : c = '(' ∨ c = ')')
    (hhere : tz.cross.hereState = .none) (hqueued : tz.cross.queuedTokens = []) :
    ∃ reason span tz', nextTokenRound o ⟨st, none, false⟩ tz =
        .done ⟨reason, some (.operator [c] span)⟩ tz' ∧
      tz'.chars = tz.chars ∧ tz'.cross.hereState = .none ∧ tz'.cross.queuedTokens = [] := by
  have hstarted : st.startedToken = true := startedToken_of_ne (htext ▸ List.cons_ne_nil _ _)
  have hdelimited : ∀ (reason : TokenEndReason) (tz' : Tokenizer), tz'.cross.hereState = .none →
      Round.ofDelimited tz' (st.delimitCurrentToken reason tz'.cross) =
        .done ⟨reason, some (.operator [c] ⟨st.startPosition, tz'.cross.cursor⟩)⟩ tz' :=
    fun reason tz' hhere => by
      rw [delimitCurrentToken_started hstarted hhere, pop, hop, if_pos rfl, htext]
      rfl
  rw [nextTokenRound, hqueued]
  dsimp only
  cases hchars : tz.chars with
  | nil =>
    refine ⟨.endOfInput, ⟨st.startPosition, tz.cross.cursor⟩, tz, ?_, hchars, hhere, hqueued⟩
    dsimp only
    rw [endOfInputRound, hesc, hmode, if_neg Bool.false_ne_true]
    dsimp only
    rw [if_pos hhere]
    exact hdelimited .endOfInput tz hhere
  | cons d chars =>
    obtain ⟨hkeep, hhere', hqueued'⟩ := operatorEnds_spec st (by rw [htext]; simp)
      (by rw [htext]; simp) tz d
    refine ⟨if st.isNewline then .unescapedNewLine else .operatorEnd,
      ⟨st.startPosition, (operatorEnds st tz d).cross.cursor⟩, operatorEnds st tz d, ?_,
      hkeep.trans hchars, hhere'.trans hhere, hqueued'.trans hqueued⟩
    have hgoes : ¬ (st.unquoted = true ∧ isOperator o (st.tokenSoFar ++ [d]) = true) := fun h => by
      have hlonely := isOperator_pair hc o d
      have hlong := h.2
      rw [htext] at hlong
      exact absurd (hlonely.symm.trans hlong) Bool.false_ne_true
    dsimp only
    rw [charRound, if_neg (by rw [hhere]; exact nofun), if_neg (fun h => nomatch h.2)]
    dsimp only
    rw [if_pos hop, operatorRound, if_neg hgoes, if_neg (by rw [hstarted]; exact nofun)]
    exact hdelimited _ _ (hhere'.trans hhere)

/-- **A parenthesis is a token.** -/
theorem Amid.paren (h : Amid o input seen .none false [] (c :: chars)) (hc : c = '(' ∨ c = ')') :
    Amid o input (Followed seen (.operator [c])) .none false [] chars := by
  obtain ⟨st, tz, tokens, hreach, htokens, hw⟩ := h
  have hnext : Machine.Next o ⟨tz, tokens, [], .call ⟨st, none, false⟩⟩ ⟨tz.advance 1, tokens, [],
      .call ⟨{ st.append [c] with tokenIsOperator := true }, none, false⟩⟩ := by
    change Machine.stepCall o _ _ = _
    rw [Machine.stepCall, hw.opens hc]
  obtain ⟨reason, span, tz', hround, hkeep, hhere, hqueued⟩ := paren_ends o
    { st.append [c] with tokenIsOperator := true } (tz.advance 1)
    (congrArg (· ++ [c]) hw.text_eq) rfl hw.escape hw.unquoted hc hw.here hw.queued
  refine amid_token (hreach.tail hnext) htokens hround ?_ hhere hqueued
  rw [hkeep, Tokenizer.advance_chars, hw.chars_eq]
  rfl

theorem Amid.wordEnds (h : Amid o input seen .none false text (c :: chars)) (htext : text ≠ [])
    (hc : c = ')') : Amid o input (Followed seen (.word text)) .none false [] (c :: chars) := by
  obtain ⟨st, tz, tokens, hreach, htokens, hw⟩ := h
  have hround : nextTokenRound o ⟨st, none, false⟩ tz =
      .done ⟨.operatorStart, some (.word text ⟨st.startPosition, tz.cross.cursor⟩)⟩ tz := by
    rw [nextTokenRound, hw.queued, hw.chars_eq]
    dsimp only
    rw [charRound_word hw, hc]
    simp [newlyAffectsQuoting, unquoted, inSingleQuotes, inDoubleQuotes, hw.escape, hw.unquoted,
      isQuotingChar, canStartOperator, hw.started htext, hw.delimited htext, Round.ofDelimited]
  exact amid_token hreach htokens hround hw.chars_eq hw.here hw.queued

end Seahaven.Parser
