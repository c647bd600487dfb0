import Seahaven.Parser.Panics

/-!
# What a round reads

A round of the tokenizer adds what it reads to the token under way, unless it loses some of it.

1. `Call.loss` is what the next round of a call loses: a backslash with a newline in `$'…'`, or a
   blank, which only matters in a nested construct.
2. `charRound_reads` is what a round reads, where no here-document, no comment and no line
   continuation is met.
3. `takeToken_reads` is what a construct shows of a token it has got.
-/

namespace Seahaven.Parser

open TokenParseState

/-! ## What is lost -/

/-- What a round loses of the text it reads. -/
inductive Loss
  | none
  /-- A backslash and a newline in `$'…'`. -/
  | dropped
  /-- A blank with no token under way. -/
  | skipped
  /-- A blank that ends a token, when it is no space. -/
  | respaced
  deriving DecidableEq

def TokenParseState.inAnsiCQuotes (st : TokenParseState) : Bool :=
  match st.quoteMode with
  | .ansiC _ => true
  | _ => false

namespace Call

def atBlank (call : Call) (c : Char) : Bool :=
  call.state.unquoted && isBlank c && call.terminatingChar != some c

/-- What the next round of a call loses, where the call reads a part of a nested construct. -/
def loss (call : Call) (tz : Tokenizer) : Loss :=
  match tz.chars with
  | [] => .none
  | c :: rest =>
    if call.state.tokenIsOperator then .none
    else if call.atBlank c then
      if call.state.startedToken then if c = ' ' then .none else .respaced
      else if call.includeSpace then .none else .skipped
    else if c = '\\' ∧ rest.head? = some '\n' ∧ call.state.inEscape = false ∧
        call.state.inAnsiCQuotes then .dropped
    else .none

def atComment (call : Call) (tz : Tokenizer) : Bool :=
  !call.state.startedToken && call.terminatingChar != some '\x7d' && tz.chars.head? == some '#'

def atContinuation (call : Call) (tz : Tokenizer) : Bool :=
  !call.state.tokenIsOperator && call.state.newlyAffectsQuoting '\\' &&
    !call.state.inAnsiCQuotes && ['\\', '\n'].isPrefixOf tz.chars

end Call

/-! ## What a round reads -/

/-- Characters are read; what waits in the queue is left there. -/
structure Tokenizer.Reads (tz : Tokenizer) (s : List Char) (tz' : Tokenizer) : Prop where
  chars : tz.chars = s ++ tz'.chars
  index : tz'.cross.cursor.index = tz.cross.cursor.index + s.length
  queuedTokens : tz'.cross.queuedTokens = tz.cross.queuedTokens

def TokenParseState.Begun (st : TokenParseState) : Prop :=
  st.unquoted = false → st.startedToken = true

/-- A text is added to a token. -/
structure TokenParseState.Extends (st : TokenParseState) (s : List Char) (st' : TokenParseState) :
    Prop where
  text : st'.tokenSoFar = st.tokenSoFar ++ s
  start : st'.startPosition = st.startPosition
  operator : st'.tokenIsOperator = true → st.tokenIsOperator = true ∨ st.tokenSoFar = []
  begun : st'.Begun

def TokenParseState.result (st : TokenParseState) (stop : SourcePosition) : Option Token :=
  if st.startedToken then some (st.pop stop) else none

def TokenParseState.skip (st : TokenParseState) : TokenParseState :=
  { st with startPosition := { st.startPosition with
      column := st.startPosition.column + 1, index := st.startPosition.index + 1 } }

/-- What a call returns. -/
structure DoneReads (call : Call) (tz : Tokenizer) (r : TokenizeResult) (tz' : Tokenizer) :
    Prop where
  token : r.token = call.state.result tz.cross.cursor
  notHere : isHereDocument r = false
  ended : r.reason = .endOfInput → tz'.chars = []
  reads : (r.reason ≠ .nonNewLineBlank ∧ tz.Reads [] tz' ∧ call.loss tz = .none) ∨
    ∃ c, r.reason = .nonNewLineBlank ∧ tz.Reads [c] tz' ∧ isBlank c = true ∧
      call.state.startedToken = true ∧ call.loss tz = if c = ' ' then .none else .respaced

/-- What a round reads, and what becomes of it. -/
def RoundReads (call : Call) (tz : Tokenizer) : Round → Prop
  | .more st tz' => tz'.cross.hereState = .none →
      (∃ s, tz.Reads s tz' ∧ call.state.Extends s st ∧ call.loss tz = .none) ∨
      (∃ c, tz.Reads [c] tz' ∧ isBlank c = true ∧ st = call.state.skip ∧
        call.state.tokenSoFar = [] ∧ call.loss tz = .skipped) ∨
      ∃ c d, tz.Reads [c, d] tz' ∧ st = call.state ∧ call.state.startedToken = true ∧
        call.state.tokenIsOperator = false ∧ call.loss tz = .dropped
  | .done r tz' => DoneReads call tz r tz'
  | .enter _ st tz' => call.state.tokenIsOperator = false ∧ st.tokenIsOperator = false ∧
      st.startedToken = true ∧
      ∃ s, tz.Reads s tz' ∧ call.state.Extends s st ∧ call.loss tz = .none
  | .stop _ => True

variable {call : Call} {tz : Tokenizer} {c : Char} {rest : List Char}

theorem SourcePosition.index_foldl_after (s : List Char) (p : SourcePosition) :
    (s.foldl SourcePosition.after p).index = p.index + s.length := by
  induction s generalizing p with
  | nil => rfl
  | cons c s ih =>
    have hafter : (p.after c).index = p.index + 1 := by
      unfold SourcePosition.after
      split_ifs <;> rfl
    rw [List.foldl_cons, ih, hafter, List.length_cons]
    omega

variable {tz' : Tokenizer}

theorem Tokenizer.reads_self (hchars : tz'.chars = tz.chars)
    (hcursor : tz'.cross.cursor = tz.cross.cursor)
    (hqueue : tz'.cross.queuedTokens = tz.cross.queuedTokens) : tz.Reads [] tz' :=
  ⟨hchars.symm, congrArg SourcePosition.index hcursor, hqueue⟩

variable {s : List Char}

theorem Tokenizer.reads_advance {rest : List Char} (hchars : tz.chars = s ++ rest) :
    tz.Reads s (tz.advance s.length) := by
  have htake : tz.chars.take s.length = s := by rw [hchars, List.take_left]
  refine ⟨?_, ?_, rfl⟩
  · rw [advance_chars, hchars, List.drop_left]
  · unfold Tokenizer.advance
    rw [htake]
    exact SourcePosition.index_foldl_after s _

theorem Tokenizer.Reads.setArithmetic (h : tz.Reads s tz')
    (b : Bool) : tz.Reads s (tz'.setArithmetic b) := ⟨h.chars, h.index, h.queuedTokens⟩

variable {st : TokenParseState}

theorem TokenParseState.begun_of_started (h : st.startedToken = true) :
    st.Begun := fun _ => h

theorem TokenParseState.extends_append (hs : s ≠ [])
    (hop : st.tokenIsOperator = false) : st.Extends s (st.append s) :=
  ⟨rfl, rfl, fun h => absurd (hop.symm.trans h) Bool.false_ne_true,
    begun_of_started (startedToken_append st hs)⟩

theorem Call.loss_of_operator (hop : call.state.tokenIsOperator = true) : call.loss tz = .none := by
  unfold loss
  split
  · rfl
  · rw [if_pos hop]

theorem Call.loss_eq_none (hchars : tz.chars = c :: rest) (hblank : call.atBlank c = false)
    (hback : c = '\\' → call.state.inEscape = false → call.state.inAnsiCQuotes = true →
      rest.head? ≠ some '\n') : call.loss tz = .none := by
  unfold loss
  rw [hchars]
  dsimp only
  split_ifs with hop hb hs hc hi hd
  · rfl
  · exact absurd (hblank.symm.trans hb) Bool.false_ne_true
  · exact absurd (hblank.symm.trans hb) Bool.false_ne_true
  · exact absurd (hblank.symm.trans hb) Bool.false_ne_true
  · exact absurd (hblank.symm.trans hb) Bool.false_ne_true
  · exact absurd hd.2.1 (hback hd.1 hd.2.2.1 hd.2.2.2)
  · rfl

theorem Call.loss_of_ne (hchars : tz.chars = c :: rest) (hblank : isBlank c = false)
    (hc : c ≠ '\\') : call.loss tz = .none :=
  loss_eq_none hchars (by unfold atBlank; simp [hblank]) fun h => absurd h hc

/-! ## The rounds of a plain run -/

theorem ofDelimited_eq {reason : TokenEndReason}
    (hhere : tz.cross.hereState = .none) (hreason : reason ≠ .hereDocumentBodyEnd) :
    Round.ofDelimited tz (st.delimitCurrentToken reason tz.cross) =
      .done ⟨reason, st.result tz.cross.cursor⟩ tz := by
  unfold delimitCurrentToken result
  by_cases hs : st.startedToken = true
  · rw [if_neg (by simp [hs]), if_pos hs, hhere]
    rfl
  · rw [if_pos ⟨Bool.eq_false_iff.2 hs, hreason⟩, if_neg hs]
    rfl

theorem roundReads_done {reason : TokenEndReason}
    (hhere : tz'.cross.hereState = .none) (hreads : tz.Reads [] tz')
    (hcursor : tz'.cross.cursor = tz.cross.cursor)
    (hreason : reason = .specifiedTerminatingChar ∨ reason = .operatorStart ∨
      reason = .operatorEnd ∨ reason = .unescapedNewLine)
    (hloss : call.loss tz = .none) :
    RoundReads call tz (.ofDelimited tz' (call.state.delimitCurrentToken reason tz'.cross)) := by
  have hnot : reason ≠ .hereDocumentBodyEnd ∧ reason ≠ .nonNewLineBlank ∧
      reason ≠ .endOfInput ∧ ∀ t, isHereDocument ⟨reason, t⟩ = false := by
    rcases hreason with rfl | rfl | rfl | rfl <;> exact ⟨nofun, nofun, nofun, fun _ => rfl⟩
  rw [ofDelimited_eq hhere hnot.1]
  exact ⟨by rw [hcursor], hnot.2.2.2 _, fun h => absurd h hnot.2.2.1,
    .inl ⟨hnot.2.1, hreads, hloss⟩⟩

theorem roundReads_text
    (hreads : tz.Reads s tz') (hst : call.state.Extends s st) (hloss : call.loss tz = .none) :
    RoundReads call tz (.more st tz') := fun _ => .inl ⟨s, hreads, hst, hloss⟩

theorem operatorEnds_cursor (st : TokenParseState) :
    (operatorEnds st tz c).cross.cursor = tz.cross.cursor := by
  unfold operatorEnds
  split_ifs <;> rfl

theorem operatorEnds_queuedTokens (st : TokenParseState) :
    (operatorEnds st tz c).cross.queuedTokens = tz.cross.queuedTokens := by
  unfold operatorEnds
  split_ifs <;> rfl

theorem operatorRound_reads {o : TokenizerOptions} (hhere : tz.cross.hereState = .none)
    (hchars : tz.chars = c :: rest) (hop : call.state.tokenIsOperator = true) :
    RoundReads call tz (operatorRound o call.state tz c) := by
  have hloss : call.loss tz = .none := Call.loss_of_operator hop
  unfold operatorRound
  by_cases hcont : call.state.unquoted = true ∧
      isOperator o (call.state.tokenSoFar ++ [c]) = true
  · rw [if_pos hcont]
    exact roundReads_text (Tokenizer.reads_advance hchars)
      ⟨rfl, rfl, fun _ => .inl hop, begun_of_started (startedToken_append _ (by simp))⟩ hloss
  rw [if_neg hcont]
  by_cases hs : call.state.startedToken = false
  · rw [if_pos hs]
    trivial
  rw [if_neg hs]
  dsimp only
  have hs : call.state.startedToken = true := by simpa using hs
  rcases operatorEnds_hereState tz c call.state with heq | ⟨b, heq⟩
  · refine roundReads_done (heq.trans hhere) (Tokenizer.reads_self (operatorEnds_chars _)
      (operatorEnds_cursor _) (operatorEnds_queuedTokens _)) (operatorEnds_cursor _) ?_ hloss
    split_ifs
    · exact .inr (.inr (.inr rfl))
    · exact .inr (.inr (.inl rfl))
  · -- A here-document has been announced: the state that is left says so.
    unfold delimitCurrentToken
    rw [if_neg (by simp [hs]), heq]
    exact fun h => by cases h

theorem isQuotingChar_iff {c : Char} :
    isQuotingChar c = true ↔ c = '\\' ∨ c = '\'' ∨ c = '"' := by
  unfold isQuotingChar
  simp [or_assoc]

theorem isQuotingChar_of_newlyAffects
    (h : st.newlyAffectsQuoting c = true) : isQuotingChar c = true := by
  unfold newlyAffectsQuoting at h
  have h := (Bool.and_eq_true_iff.1 h).2
  rw [isQuotingChar_iff]
  cases hmode : st.quoteMode with
  | none =>
    rw [hmode] at h
    exact isQuotingChar_iff.1 h
  | single p =>
    rw [hmode] at h
    cases h
  | double p =>
    rw [hmode] at h
    exact .inl (by simpa using h)
  | ansiC p =>
    rw [hmode] at h
    exact .inl (by simpa using h)

theorem isBlank_of_isQuotingChar (h : isQuotingChar c = true) : isBlank c = false := by
  rcases isQuotingChar_iff.1 h with rfl | rfl | rfl <;> rfl

theorem TokenParseState.quoteMode_of_ansiC
    (h : st.inAnsiCQuotes = true) : ∃ p, st.quoteMode = .ansiC p := by
  unfold inAnsiCQuotes at h
  split at h
  next p hmode => exact ⟨p, hmode⟩
  next => cases h

theorem TokenParseState.unquoted_of_ansiC (h : st.inAnsiCQuotes = true) : st.unquoted = false := by
  obtain ⟨p, hmode⟩ := quoteMode_of_ansiC h
  unfold unquoted
  simp [hmode]

theorem quotingRound_reads (hchars : tz.chars = c :: rest) (hbegun : call.state.Begun)
    (hop : call.state.tokenIsOperator = false) (hquote : call.state.newlyAffectsQuoting c = true)
    (hcont : call.atContinuation tz = false) :
    RoundReads call tz (quotingRound call.state tz c) := by
  have hblank := isBlank_of_isQuotingChar (isQuotingChar_of_newlyAffects hquote)
  have hat : call.atBlank c = false := by
    unfold Call.atBlank
    simp [hblank]
  have hone : tz.Reads [c] (tz.advance 1) := Tokenizer.reads_advance hchars
  unfold quotingRound
  by_cases hc : c = '\\'
  · subst hc
    rw [if_pos rfl]
    by_cases hnl : (tz.chars.drop 1).head? = some '\n'
    · rw [if_pos hnl]
      rw [hchars] at hnl
      obtain ⟨rest', rfl⟩ : ∃ rest', rest = '\n' :: rest' := by
        cases rest with
        | nil => cases hnl
        | cons d rest' =>
          obtain rfl : d = '\n' := Option.some.inj hnl
          exact ⟨rest', rfl⟩
      have hansi : call.state.inAnsiCQuotes = true := by
        unfold Call.atContinuation at hcont
        rw [hop, hquote, hchars] at hcont
        simpa using hcont
      have hesc : call.state.inEscape = false := by
        unfold newlyAffectsQuoting at hquote
        simpa using (Bool.and_eq_true_iff.1 hquote).1
      refine fun _ => .inr (.inr ⟨'\\', '\n', Tokenizer.reads_advance hchars, rfl,
        hbegun (unquoted_of_ansiC hansi), hop, ?_⟩)
      unfold Call.loss
      rw [hchars]
      dsimp only
      rw [if_neg (by simp [hop]), if_neg (by simp [hat]), if_pos ⟨rfl, rfl, hesc, hansi⟩]
    · rw [if_neg hnl]
      refine roundReads_text hone
        ⟨rfl, rfl, fun h => absurd (hop.symm.trans h) Bool.false_ne_true,
          begun_of_started (startedToken_append call.state (by simp))⟩
        (Call.loss_eq_none hchars hat fun _ _ _ => ?_)
      rw [hchars] at hnl
      exact hnl
  · rw [if_neg hc]
    have hloss : call.loss tz = .none := Call.loss_of_ne hchars hblank hc
    dsimp only
    by_cases hq : c = '\''
    · rw [if_pos hq]
      exact roundReads_text hone
        ⟨rfl, rfl, fun h => absurd (hop.symm.trans h) Bool.false_ne_true,
          begun_of_started (startedToken_append call.state (by simp))⟩ hloss
    · rw [if_neg hq]
      exact roundReads_text hone
        ⟨rfl, rfl, fun h => absurd (hop.symm.trans h) Bool.false_ne_true,
          begun_of_started (startedToken_append call.state (by simp))⟩ hloss

theorem roundReads_enter {k : Construct} (hs : s ≠ [])
    (hop : call.state.tokenIsOperator = false) (hreads : tz.Reads s tz')
    (hloss : call.loss tz = .none) :
    RoundReads call tz (.enter k (call.state.append s) tz') :=
  ⟨hop, hop, startedToken_append call.state hs, s, hreads, extends_append hs hop, hloss⟩

theorem dollarRound_reads (hchars : tz.chars = '$' :: rest)
    (hop : call.state.tokenIsOperator = false) :
    RoundReads call tz (dollarRound call.state tz) := by
  have hloss : call.loss tz = .none := Call.loss_of_ne hchars rfl (by decide)
  unfold dollarRound
  rw [hchars, List.drop_one, List.tail_cons]
  split
  next =>
    exact roundReads_enter (List.cons_ne_nil _ _) hop
      ((Tokenizer.reads_advance (s := ['$', '(', '(']) hchars).setArithmetic true) hloss
  next =>
    exact roundReads_enter (List.cons_ne_nil _ _) hop
      (Tokenizer.reads_advance (s := ['$', '(']) hchars) hloss
  next =>
    exact roundReads_enter (List.cons_ne_nil _ _) hop
      ((Tokenizer.reads_advance (s := ['$', '[']) hchars).setArithmetic true) hloss
  next =>
    exact roundReads_enter (List.cons_ne_nil _ _) hop
      (Tokenizer.reads_advance (s := ['$', '\x7b']) hchars) hloss
  next =>
    exact roundReads_text (Tokenizer.reads_advance (s := ['$']) hchars)
      (extends_append (List.cons_ne_nil _ _) hop) hloss

theorem takeBackquoted_prefix {escaping : Bool} {text : List Char}
    (h : takeBackquoted escaping s = some text) : ∃ rest, s = text ++ rest := by
  induction s generalizing escaping text with
  | nil => cases h
  | cons c s ih =>
    unfold takeBackquoted at h
    split_ifs at h with hesc hend
    · obtain ⟨t, ht, rfl⟩ := Option.map_eq_some_iff.1 h
      obtain ⟨rest, rfl⟩ := ih ht
      exact ⟨rest, rfl⟩
    · cases h
      exact ⟨s, rfl⟩
    · obtain ⟨t, ht, rfl⟩ := Option.map_eq_some_iff.1 h
      obtain ⟨rest, rfl⟩ := ih ht
      exact ⟨rest, rfl⟩

theorem takeExtglob_prefix {depth : Nat} {inEscape : Bool} {text : List Char}
    (h : takeExtglob depth inEscape s = some text) : ∃ rest, s = text ++ rest := by
  induction s generalizing depth inEscape text with
  | nil => cases h
  | cons c s ih =>
    have hmap : ∀ {n b}, (takeExtglob n b s).map (c :: ·) = some text →
        ∃ rest, c :: s = text ++ rest := by
      intro n b h
      obtain ⟨t, ht, rfl⟩ := Option.map_eq_some_iff.1 h
      obtain ⟨rest, rfl⟩ := ih ht
      exact ⟨rest, rfl⟩
    unfold takeExtglob at h
    split_ifs at h
    · exact hmap h
    · exact hmap h
    · exact hmap h
    · cases h
      exact ⟨s, rfl⟩
    · exact hmap h
    · exact hmap h

theorem backquoteRound_reads (hchars : tz.chars = '`' :: rest)
    (hop : call.state.tokenIsOperator = false) :
    RoundReads call tz (backquoteRound call.state tz) := by
  unfold backquoteRound
  rw [hchars, List.drop_one, List.tail_cons]
  split
  · trivial
  next text htext =>
    obtain ⟨rest', rfl⟩ := takeBackquoted_prefix htext
    exact roundReads_text (Tokenizer.reads_advance (s := '`' :: text) hchars)
      (extends_append (by simp) hop) (Call.loss_of_ne hchars rfl (by decide))

theorem extglobRound_reads (hchars : tz.chars = '(' :: rest)
    (hop : call.state.tokenIsOperator = false) :
    RoundReads call tz (extglobRound call.state tz) := by
  unfold extglobRound
  rw [hchars, List.drop_one, List.tail_cons]
  split
  · trivial
  next text htext =>
    obtain ⟨rest', rfl⟩ := takeExtglob_prefix htext
    exact roundReads_text (Tokenizer.reads_advance (s := '(' :: text) hchars)
      (extends_append (by simp) hop) (Call.loss_of_ne hchars rfl (by decide))

theorem blankRound_reads (hhere : tz.cross.hereState = .none) (hchars : tz.chars = c :: rest)
    (hop : call.state.tokenIsOperator = false)
    (hat : call.atBlank c = true) (hblank : isBlank c = true) :
    RoundReads call tz (blankRound call tz c) := by
  have hone : tz.Reads [c] (tz.advance 1) := Tokenizer.reads_advance hchars
  have hloss : call.loss tz = if call.state.startedToken then
      if c = ' ' then .none else .respaced
      else if call.includeSpace then .none else .skipped := by
    unfold Call.loss
    rw [hchars]
    dsimp only
    rw [if_neg (by simp [hop]), if_pos hat]
  unfold blankRound
  dsimp only
  by_cases hs : call.state.startedToken = true
  · rw [if_pos hs, ofDelimited_eq hhere (by decide)]
    rw [if_pos hs] at hloss
    exact ⟨rfl, rfl, nofun, .inr ⟨c, rfl, hone, hblank, hs, hloss⟩⟩
  rw [if_neg hs]
  rw [if_neg hs] at hloss
  by_cases hi : call.includeSpace = true
  · rw [if_pos hi]
    rw [if_pos hi] at hloss
    exact roundReads_text hone (extends_append (by simp) hop) hloss
  · rw [if_neg hi]
    rw [if_neg hi] at hloss
    refine fun _ => .inr (.inl ⟨c, hone, hblank, rfl, ?_, hloss⟩)
    by_contra hne
    exact hs (startedToken_iff.2 hne)

theorem canStartOperator_spec (h : canStartOperator c = true) : isBlank c = false ∧ c ≠ '\\' := by
  unfold canStartOperator at h
  rw [List.contains_iff_mem] at h
  simp only [List.mem_cons, List.not_mem_nil, or_false] at h
  rcases h with rfl | rfl | rfl | rfl | rfl | rfl | rfl | rfl <;> exact ⟨rfl, by decide⟩

/-- **What a round reads.** -/
theorem charRound_reads {o : TokenizerOptions} (hhere : tz.cross.hereState = .none)
    (hchars : tz.chars = c :: rest) (hbegun : call.state.Begun)
    (hcomment : call.atComment tz = false) (hcont : call.atContinuation tz = false) :
    RoundReads call tz (charRound o call tz c) := by
  have hone : tz.Reads [c] (tz.advance 1) := Tokenizer.reads_advance hchars
  have hstarted : (call.state.append [c]).startedToken = true :=
    startedToken_append call.state (by simp)
  apply charRound_cases (P := RoundReads call tz)
  case hereDoc => exact fun hin => absurd (hhere.symm.trans hin) nofun
  case terminating =>
    intro hunq hterm
    refine roundReads_done hhere (Tokenizer.reads_self rfl rfl rfl) rfl (.inl rfl)
      (Call.loss_eq_none hchars ?_ fun _ _ hansi => ?_)
    · unfold Call.atBlank
      simp [hterm]
    · exact absurd (hunq.symm.trans (unquoted_of_ansiC hansi)) nofun
  case operator => exact fun hop => operatorRound_reads hhere hchars hop
  case quoting => exact fun hop hquote => quotingRound_reads hchars hbegun hop hquote hcont
  case closing =>
    intro hop hc
    refine roundReads_text hone
      ⟨rfl, rfl, fun h => absurd (hop.symm.trans h) Bool.false_ne_true, begun_of_started hstarted⟩
      (Call.loss_of_ne hchars ?_ ?_)
    · rcases hc with rfl | rfl <;> rfl
    · rcases hc with rfl | rfl <;> decide
  case escaped =>
    intro hop hesc
    refine roundReads_text hone
      ⟨rfl, rfl, fun h => absurd (hop.symm.trans h) Bool.false_ne_true, begun_of_started hstarted⟩
      (Call.loss_eq_none hchars ?_ fun _ h => absurd (hesc.symm.trans h) nofun)
    unfold Call.atBlank unquoted
    simp [hesc]
  case dollar =>
    rintro hop rfl
    exact dollarRound_reads hchars hop
  case backquote =>
    rintro hop rfl
    exact backquoteRound_reads hchars hop
  case extglob =>
    rintro hop rfl
    exact extglobRound_reads hchars hop
  case operatorStart =>
    intro _ hc
    obtain ⟨hblank, hne⟩ := canStartOperator_spec hc
    exact roundReads_done hhere (Tokenizer.reads_self rfl rfl rfl) rfl (.inr (.inl rfl))
      (Call.loss_of_ne hchars hblank hne)
  case operatorChar =>
    intro _ hs hc
    obtain ⟨hblank, hne⟩ := canStartOperator_spec hc
    refine roundReads_text hone ⟨rfl, rfl, fun _ => .inr ?_, begun_of_started hstarted⟩
      (Call.loss_of_ne hchars hblank hne)
    by_contra hne
    exact absurd (hs.symm.trans (startedToken_iff.2 hne)) nofun
  case blank =>
    intro hop hunq hblank hterm
    refine blankRound_reads hhere hchars hop ?_ hblank
    unfold Call.atBlank
    simp [hunq, hblank, hterm]
  case comment =>
    intro hs hterm hc
    have hat : call.atComment tz = true := by
      unfold Call.atComment
      simp [hs, hterm, hchars, hc]
    exact absurd (hcomment.symm.trans hat) nofun
  case word =>
    intro hop hquote hblank
    refine roundReads_text hone (extends_append (by simp) hop)
      (Call.loss_eq_none hchars ?_ fun hc hesc hansi => ?_)
    · unfold Call.atBlank
      cases hunq : call.state.unquoted with
      | false => rfl
      | true => simp [(hblank hunq).1]
    · have haffects : call.state.newlyAffectsQuoting c = true := by
        obtain ⟨p, hmode⟩ := quoteMode_of_ansiC hansi
        unfold newlyAffectsQuoting
        rw [hesc, hmode, hc]
        rfl
      exact absurd (hquote.symm.trans haffects) nofun

theorem endOfInputRound_reads (hhere : tz.cross.hereState = .none) (hchars : tz.chars = []) :
    RoundReads call tz (endOfInputRound call.state tz) := by
  unfold endOfInputRound
  by_cases hesc : call.state.inEscape = true
  · rw [if_pos hesc]
    trivial
  rw [if_neg hesc]
  cases call.state.quoteMode with
  | ansiC pos => trivial
  | single pos => trivial
  | double pos => trivial
  | none =>
    dsimp only
    rw [if_pos hhere, ofDelimited_eq hhere (by decide)]
    refine ⟨rfl, rfl, fun _ => hchars, .inl ⟨nofun, Tokenizer.reads_self rfl rfl rfl, ?_⟩⟩
    unfold Call.loss
    rw [hchars]

/-! ## One token of a construct -/

def TokenizeResult.shown (r : TokenizeResult) : List Char :=
  r.text ++ if r.reason = .nonNewLineBlank then [' '] else []

def TakenReads (r : TokenizeResult) (st : TokenParseState) (tz : Tokenizer) : Taken → Prop
  | .more l st' tz' => l.pending = [] ∧ ∃ s, tz.Reads s tz' ∧ st' = st.append (r.shown ++ s)
  | .ended st' tz' => ∃ s, tz.Reads s tz' ∧ st' = st.append (r.shown ++ s)
  | .stop _ => True

theorem TokenParseState.append_append (st : TokenParseState) (s s' : List Char) :
    (st.append s).append s' = st.append (s ++ s') := by
  unfold append
  rw [List.append_assoc]

variable {l : ConstructLoop} {r : TokenizeResult}

theorem countOpen_pending {l' : ConstructLoop}
    (h : countOpen l r = .ok l') : l'.pending = l.pending := by
  unfold countOpen at h
  split at h
  · cases h
    rfl
  · split_ifs at h
    · cases h
      rfl
    · cases h
      rfl

theorem consumeNext_reads {st' : TokenParseState}
    (h : consumeNext st tz = .ok (st', tz')) :
    ∃ s, tz.Reads s tz' ∧ st' = st.append s := by
  unfold consumeNext at h
  split at h
  next => cases h
  next c rest hchars =>
    cases h
    exact ⟨[c], Tokenizer.reads_advance hchars, rfl⟩

theorem terminate_reads (hl : l.pending = []) (hr : r.reason ≠ .nonNewLineBlank) :
    TakenReads r st tz (terminate l (st.append r.text) tz) := by
  have hshown : r.shown = r.text := by
    unfold TokenizeResult.shown
    rw [if_neg hr, List.append_nil]
  unfold terminate
  split
  next =>
    cases hc : consumeNext (st.append r.text) tz with
    | error s => trivial
    | ok p =>
      obtain ⟨s, hs, hst⟩ := consumeNext_reads hc
      exact ⟨s, hs, by rw [hst, append_append, hshown]⟩
  next t nestingOpen count isArithmetic _ =>
    by_cases hcount : count = 0
    · rw [if_pos hcount]
      trivial
    rw [if_neg hcount]
    cases hc : consumeNext (st.append r.text) tz with
    | error s => trivial
    | ok p =>
      obtain ⟨s, hs, hst⟩ := consumeNext_reads hc
      dsimp only
      split_ifs with hone harith
      · exact ⟨s, hs.setArithmetic false, by rw [hst, append_append, hshown]⟩
      · exact ⟨s, hs, by rw [hst, append_append, hshown]⟩
      · exact ⟨hl, s, hs, by rw [hst, append_append, hshown]⟩

theorem takeToken_reads (hl : l.pending = []) (hr : isHereDocument r = false) :
    TakenReads r st tz (takeToken l r st tz) := by
  unfold takeToken
  rw [if_neg (by simp [hl])]
  cases hc : countOpen l r with
  | error s => trivial
  | ok l' =>
    have hl' : l'.pending = [] := (countOpen_pending hc).trans hl
    have hself : tz.Reads [] tz := Tokenizer.reads_self rfl rfl rfl
    have hmore : r.reason ≠ .nonNewLineBlank →
        TakenReads r st tz (.more l' (st.append r.text) tz) := by
      intro hne
      refine ⟨hl', [], hself, ?_⟩
      unfold TokenizeResult.shown
      rw [if_neg hne, List.append_nil, List.append_nil]
    dsimp only
    cases hreason : r.reason with
    | hereDocumentBodyStart =>
      unfold isHereDocument at hr
      rw [hreason] at hr
      cases hr
    | nonNewLineBlank =>
      refine ⟨hl', [], hself, ?_⟩
      unfold TokenizeResult.shown
      rw [if_pos hreason, append_append, List.append_nil]
    | specifiedTerminatingChar => exact terminate_reads hl' (by rw [hreason]; nofun)
    | endOfInput => trivial
    | unescapedNewLine => exact hmore (by rw [hreason]; nofun)
    | hereDocumentBodyEnd => exact hmore (by rw [hreason]; nofun)
    | hereDocumentEndTag => exact hmore (by rw [hreason]; nofun)
    | operatorStart => exact hmore (by rw [hreason]; nofun)
    | operatorEnd => exact hmore (by rw [hreason]; nofun)
    | other => exact hmore (by rw [hreason]; nofun)

end Seahaven.Parser
