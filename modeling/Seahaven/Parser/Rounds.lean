import Seahaven.Parser.Tokenizer

/-!
# What a round can do

Every round of `next_token_until` on a character, and every token a construct takes, brings the
tokenizer closer to its end. The weights say how far it has to go: what is left of the input
weighs most, then a token under way, then what is kept of here-documents.

1. `delimitCurrentToken_spec` and `removeHereEndTag_spec` are what ending a token does.
2. `RoundOk` is what a round does; it holds of every round that does not take a queued token
   (`charRound_ok`, `endOfInputRound_ok`), but at the end of the input for a here-document whose
   tag is empty (`Awaits`).
-/

namespace Seahaven.Parser

open TokenParseState

/-! ## Weights -/

def HereTag.weight (t : HereTag) : Nat :=
  5 * (t.tokens.length + t.pendingTokensAfter.length + 3) + 1

def HereState.weight : HereState → Nat
  | .currentTokenIsHereTag _ _ => 5
  | _ => 0

def CrossTokenParseState.weight (cross : CrossTokenParseState) : Nat :=
  cross.hereState.weight + (cross.currentHereTags.map HereTag.weight).sum +
    5 * cross.queuedTokens.length

def TokenParseState.weight (st : TokenParseState) : Nat :=
  if st.startedToken then 30 else 0

def Tokenizer.weight (tz : Tokenizer) : Nat := 40 * tz.chars.length + tz.cross.weight

def TokenizeResult.weight (r : TokenizeResult) : Nat :=
  if r.token = none ∧ (r.reason = .specifiedTerminatingChar ∨ r.reason = .endOfInput) then 0
  else 4

theorem TokenizeResult.weight_le (r : TokenizeResult) : r.weight ≤ 4 := by
  unfold weight
  split_ifs <;> omega

theorem TokenParseState.weight_le (st : TokenParseState) : st.weight ≤ 30 := by
  unfold weight
  split_ifs <;> omega

@[simp] theorem TokenParseState.weight_new (p : SourcePosition) : (new p).weight = 0 := rfl

variable {st : TokenParseState}

theorem TokenParseState.weight_of_started (h : st.startedToken = true) :
    st.weight = 30 := if_pos h

/-! ## Invariants of a token and of the here-documents -/

/-- The tokens of a here-document come before its body, and the state in which the next token is a
tag is left as soon as it is entered. -/
structure CrossTokenParseState.HereOk (cross : CrossTokenParseState) : Prop where
  tags : cross.hereState = .inHereDocs → cross.currentHereTags ≠ []
  settled : ∀ b, cross.hereState ≠ .nextTokenIsHereTag b

def TokenParseState.Ok (st : TokenParseState) : Prop :=
  st.tokenIsOperator = true → st.startedToken = true

theorem TokenParseState.ok_new (p : SourcePosition) : (new p).Ok := nofun

theorem TokenParseState.startedToken_iff : st.startedToken = true ↔ st.tokenSoFar ≠ [] := by
  unfold startedToken
  simp

variable {s : List Char}

theorem TokenParseState.startedToken_append (st : TokenParseState)
    (hs : s ≠ []) : (st.append s).startedToken = true := by
  rw [startedToken_iff]
  unfold append
  simp [hs]

/-! ## Ending a token -/

/-- What ending a token comes to, by whether the token is the result or is kept for a
here-document. -/
def DelimitOk (st : TokenParseState) (reason : TokenEndReason) (cross : CrossTokenParseState) :
    Except Stop Delimited → Prop
  | .error s => ∀ p, s ≠ .panic p
  | .ok (some r, _, cross') => cross' = cross ∧ r.reason = reason ∧
      (reason = .hereDocumentBodyEnd ∨ st.startedToken = true → cross.hereState = .none) ∧
      (reason = .hereDocumentBodyEnd ∨ st.startedToken = true ∨ r.token = none)
  | .ok (none, st', cross') => st' = new cross.cursor ∧ cross'.HereOk ∧
      (st.startedToken = true ∨ reason = .hereDocumentBodyEnd) ∧ cross.hereState ≠ .none ∧
      cross'.weight ≤ cross.weight + 21 ∧
      (cross.hereState = .inHereDocs → cross'.weight < cross.weight)

theorem sum_weight_concat (tags : List HereTag) (t : HereTag) :
    ((tags ++ [t]).map HereTag.weight).sum = (tags.map HereTag.weight).sum + t.weight := by
  rw [List.map_append, List.sum_append]
  simp

variable {cross : CrossTokenParseState}

/-- **Ending a token.** -/
theorem delimitCurrentToken_ok (st : TokenParseState) (reason : TokenEndReason)
    (htags : cross.hereState = .inHereDocs → cross.currentHereTags ≠ []) :
    DelimitOk st reason cross (st.delimitCurrentToken reason cross) := by
  unfold delimitCurrentToken
  by_cases h : st.startedToken = false ∧ reason ≠ .hereDocumentBodyEnd
  · rw [if_pos h]
    refine ⟨rfl, rfl, ?_, .inr (.inr rfl)⟩
    rintro (hr | hs)
    · exact absurd hr h.2
    · rw [h.1] at hs
      cases hs
  · rw [if_neg h]
    have hkept : st.startedToken = true ∨ reason = .hereDocumentBodyEnd := by
      by_cases hs : st.startedToken = true
      · exact .inl hs
      · refine .inr ?_
        by_contra hr
        exact h ⟨Bool.eq_false_iff.2 hs, hr⟩
    obtain ⟨cursor, hereState, tags, queue, arithmetic⟩ := cross
    cases hereState with
    | none =>
      refine ⟨rfl, rfl, fun _ => rfl, ?_⟩
      exact hkept.elim (fun hs => .inr (.inl hs)) .inl
    | nextTokenIsHereTag removeTabs =>
      refine ⟨rfl, ⟨nofun, nofun⟩, hkept, nofun, ?_,
        nofun⟩
      simp only [CrossTokenParseState.weight, HereState.weight]
      omega
    | currentTokenIsHereTag removeTabs op =>
      dsimp only
      split_ifs with hnl
      · exact nofun
      · refine ⟨rfl, ⟨nofun, nofun⟩, hkept, nofun, ?_,
          nofun⟩
        simp only [CrossTokenParseState.weight, HereState.weight, sum_weight_concat,
          HereTag.weight, List.length_cons, List.length_nil]
        omega
    | nextLineIsHereDoc =>
      dsimp only
      rcases List.eq_nil_or_concat' tags with rfl | ⟨tags, last, rfl⟩
      · exact nofun
      · rw [List.getLast?_concat, List.dropLast_concat]
        refine ⟨rfl, ⟨fun _ => by simp, fun b h => ?_⟩, hkept, nofun, ?_,
          nofun⟩
        · dsimp only at h
          split_ifs at h
        · have hw : (if st.isNewline = true then HereState.inHereDocs
              else .nextLineIsHereDoc).weight = 0 := by
            split_ifs <;> rfl
          simp only [CrossTokenParseState.weight, hw, sum_weight_concat, HereTag.weight,
            List.length_append, List.length_cons, List.length_nil]
          omega
    | inHereDocs =>
      cases tags with
      | nil => exact absurd rfl (htags rfl)
      | cons completed tags =>
        dsimp only
        have hlt : CrossTokenParseState.weight
            { cursor := cursor
              hereState := if tags.isEmpty then .none else .inHereDocs
              currentHereTags := tags
              queuedTokens := queue ++ completed.tokens ++
                [⟨.hereDocumentBodyStart, none⟩, ⟨reason, some (st.pop cursor)⟩,
                  ⟨.hereDocumentEndTag, some (((new cursor).append
                    ((if completed.tagWasEscapedOrQuoted then unquoteStr completed.tag
                      else completed.tag).reverse.dropWhile (· == '\n')).reverse).pop cursor)⟩] ++
                completed.pendingTokensAfter
              arithmeticExpansion := arithmetic } <
            CrossTokenParseState.weight ⟨cursor, .inHereDocs, completed :: tags, queue,
              arithmetic⟩ := by
          have hw : (if tags.isEmpty = true then HereState.none else .inHereDocs).weight = 0 := by
            split_ifs <;> rfl
          have hin : HereState.inHereDocs.weight = 0 := rfl
          simp only [CrossTokenParseState.weight, hw, hin, List.map_cons, List.sum_cons,
            HereTag.weight, List.length_append, List.length_cons, List.length_nil]
          omega
        refine ⟨rfl, ⟨fun hh => ?_, fun b hh => ?_⟩, hkept, nofun, ?_, ?_⟩
        · rintro rfl
          cases hh
        · dsimp only at hh
          split_ifs at hh
        · exact (Nat.le_of_lt hlt).trans (Nat.le_add_right _ _)
        · exact fun _ => hlt

/-! ## Rounds -/

variable {o : TokenizerOptions}

/-- **What a round on a character is**, by the branch it takes. -/
theorem charRound_cases {call : Call} {tz : Tokenizer} {c : Char}
    {P : Round → Prop}
    (hereDoc : tz.cross.hereState = .inHereDocs → P (hereDocRound call.state tz c))
    (terminating : call.state.unquoted = true → call.terminatingChar = some c →
      P (.ofDelimited tz (call.state.delimitCurrentToken .specifiedTerminatingChar tz.cross)))
    (operator : call.state.tokenIsOperator = true → P (operatorRound o call.state tz c))
    (quoting : call.state.tokenIsOperator = false → call.state.newlyAffectsQuoting c = true →
      P (quotingRound call.state tz c))
    (closing : call.state.tokenIsOperator = false → c = '\'' ∨ c = '"' →
      P (.more { call.state.append [c] with quoteMode := .none } (tz.advance 1)))
    (escaped : call.state.tokenIsOperator = false → call.state.inEscape = true →
      P (.more { call.state.append [c] with inEscape := false } (tz.advance 1)))
    (dollar : call.state.tokenIsOperator = false → c = '$' → P (dollarRound call.state tz))
    (backquote : call.state.tokenIsOperator = false → c = '`' → P (backquoteRound call.state tz))
    (extglob : call.state.tokenIsOperator = false → c = '(' → P (extglobRound call.state tz))
    (operatorStart : call.state.startedToken = true → canStartOperator c = true →
      P (.ofDelimited tz (call.state.delimitCurrentToken .operatorStart tz.cross)))
    (operatorChar : call.state.unquoted = true → call.state.startedToken = false →
      canStartOperator c = true →
      P (.more { call.state.append [c] with tokenIsOperator := true } (tz.advance 1)))
    (blank : call.state.tokenIsOperator = false → call.state.unquoted = true →
      isBlank c = true → call.terminatingChar ≠ some c → P (blankRound call tz c))
    (comment : call.state.startedToken = false → call.terminatingChar ≠ some '\x7d' → c = '#' →
      P (.more call.state (tz.advance (tz.chars.takeWhile (· ≠ '\n')).length)))
    (word : call.state.tokenIsOperator = false → call.state.newlyAffectsQuoting c = false →
      (call.state.unquoted = true → isBlank c = false ∧ canStartOperator c = false) →
        P (.more (call.state.append [c]) (tz.advance 1))) :
    P (charRound o call tz c) := by
  unfold charRound
  by_cases hin : tz.cross.hereState = .inHereDocs
  · rw [if_pos hin]
    exact hereDoc hin
  rw [if_neg hin]
  by_cases hterm : call.state.unquoted = true ∧ call.terminatingChar = some c
  · rw [if_pos hterm]
    exact terminating hterm.1 hterm.2
  rw [if_neg hterm]
  by_cases hop : call.state.tokenIsOperator = true
  · rw [if_pos hop]
    exact operator hop
  rw [if_neg hop]
  have hop := Bool.eq_false_iff.2 hop
  by_cases hquote : call.state.newlyAffectsQuoting c = true
  · rw [if_pos hquote]
    exact quoting hop hquote
  rw [if_neg hquote]
  by_cases hsingle : call.state.inEscape = false ∧ call.state.inSingleQuotes = true ∧ c = '\''
  · rw [if_pos hsingle]
    exact closing hop (.inl hsingle.2.2)
  rw [if_neg hsingle]
  by_cases hdouble : call.state.inEscape = false ∧ call.state.inDoubleQuotes = true ∧ c = '"'
  · rw [if_pos hdouble]
    exact closing hop (.inr hdouble.2.2)
  rw [if_neg hdouble]
  by_cases hesc : call.state.inEscape = true
  · rw [if_pos hesc]
    exact escaped hop hesc
  rw [if_neg hesc]
  by_cases hdollar : (call.state.unquoted = true ∨ call.state.inDoubleQuotes = true) ∧ c = '$'
  · rw [if_pos hdollar]
    exact dollar hop hdollar.2
  rw [if_neg hdollar]
  by_cases hback : (call.state.unquoted = true ∨ call.state.inDoubleQuotes = true) ∧ c = '`'
  · rw [if_pos hback]
    exact backquote hop hback.2
  rw [if_neg hback]
  by_cases hglob : c = '(' ∧ o.enableExtendedGlobbing = true ∧ call.state.unquoted = true ∧
      call.state.tokenSoFar.getLast?.any canStartExtglob = true
  · rw [if_pos hglob]
    exact extglob hop hglob.1
  rw [if_neg hglob]
  by_cases hoper : call.state.unquoted = true ∧ canStartOperator c = true
  · rw [if_pos hoper]
    by_cases hstart : call.state.startedToken = true
    · rw [if_pos hstart]
      exact operatorStart hstart hoper.2
    · rw [if_neg hstart]
      exact operatorChar hoper.1 (Bool.eq_false_iff.2 hstart) hoper.2
  rw [if_neg hoper]
  by_cases hblank : call.state.unquoted = true ∧ isBlank c = true
  · rw [if_pos hblank]
    exact blank hop hblank.1 hblank.2 fun ht => hterm ⟨hblank.1, ht⟩
  rw [if_neg hblank]
  have hquote := Bool.eq_false_iff.2 hquote
  have hblank : call.state.unquoted = true → isBlank c = false ∧ canStartOperator c = false :=
    fun hunq => ⟨Bool.eq_false_iff.2 fun hc => hblank ⟨hunq, hc⟩,
      Bool.eq_false_iff.2 fun hc => hoper ⟨hunq, hc⟩⟩
  by_cases hword : call.state.startedToken = true ∨ call.terminatingChar = some '\x7d'
  · rw [if_pos hword]
    exact word hop hquote hblank
  rw [if_neg hword]
  by_cases hcomment : c = '#'
  · rw [if_pos hcomment]
    exact comment (Bool.eq_false_iff.2 fun ht => hword (.inl ht)) (fun ht => hword (.inr ht))
      hcomment
  · rw [if_neg hcomment]
    exact word hop hquote hblank

/-- At the end of the input, a here-document whose tag is empty is still to come, and no token is
under way. -/
structure Awaits (st : TokenParseState) (cross : CrossTokenParseState) : Prop where
  empty : st.tokenSoFar = []
  unquoted : st.unquoted = true
  pending : cross.hereState ≠ .none ∧ cross.hereState ≠ .inHereDocs
  tag : ∃ tag tags, cross.currentHereTags = tag :: tags ∧ hereEndTag tag false = []

/-- What a round of a call does. -/
def RoundOk (call : Call) (tz : Tokenizer) : Round → Prop
  | .more st' tz' => st'.Ok ∧ tz'.cross.HereOk ∧
      tz'.weight + st'.weight < tz.weight + call.state.weight
  | .done r tz' => tz'.cross.HereOk ∧ tz'.weight + r.weight < tz.weight + call.state.weight + 1 ∧
      (r.reason = .specifiedTerminatingChar → tz'.chars ≠ [] ∧ call.terminatingChar ≠ none)
  | .enter k st' tz' => st'.startedToken = true ∧ st'.tokenIsOperator = false ∧
      tz'.cross.HereOk ∧ tz'.weight + st'.weight + 1 < tz.weight + call.state.weight ∧
      ∀ t o n b, k = .nested t o n b → 0 < n ∧ n < maxNesting
  | .stop s => ∀ p, s ≠ .panic p

@[simp] theorem Tokenizer.advance_chars (tz : Tokenizer) (n : Nat) :
    (tz.advance n).chars = tz.chars.drop n := rfl

theorem Tokenizer.advance_weight (tz : Tokenizer) (n : Nat) :
    (tz.advance n).weight = 40 * (tz.chars.length - n) + tz.cross.weight := by
  unfold Tokenizer.weight
  rw [advance_chars, List.length_drop]
  rfl

theorem Tokenizer.advance_hereOk {tz : Tokenizer} (n : Nat) (h : tz.cross.HereOk) :
    (tz.advance n).cross.HereOk := ⟨h.tags, h.settled⟩

variable {call : Call} {tz : Tokenizer} {c : Char} {rest : List Char}

variable {tz' : Tokenizer}

theorem roundOk_consume {st' : TokenParseState} {n : Nat}
    (hchars : tz.chars ≠ []) (hst' : st'.Ok) (hhere : tz'.cross.HereOk) (hn : 0 < n)
    (hw : tz'.weight ≤ (tz.advance n).weight) : RoundOk call tz (.more st' tz') := by
  refine ⟨hst', hhere, ?_⟩
  have hlen : 0 < tz.chars.length := List.length_pos_of_ne_nil hchars
  have hle := st'.weight_le
  rw [Tokenizer.advance_weight] at hw
  unfold Tokenizer.weight at hw ⊢
  omega

theorem ok_append (hs : s ≠ []) : (st.append s).Ok :=
  fun _ => startedToken_append st hs

theorem roundOk_ofDelimited {reason : TokenEndReason}
    (hchars : tz'.chars = tz.chars) (hw : tz'.weight ≤ tz.weight)
    (htags : tz'.cross.hereState = .inHereDocs → tz'.cross.currentHereTags ≠ [])
    (hsettled : call.state.startedToken = true ∨ ∀ b, tz'.cross.hereState ≠ .nextTokenIsHereTag b)
    (hreason : reason ≠ .hereDocumentBodyEnd)
    (hempty : call.state.startedToken = true ∨ reason = .endOfInput ∨
      reason = .specifiedTerminatingChar)
    (hterm : reason = .specifiedTerminatingChar → tz.chars ≠ [] ∧ call.terminatingChar ≠ none) :
    RoundOk call tz (.ofDelimited tz' (call.state.delimitCurrentToken reason tz'.cross)) := by
  have hok := delimitCurrentToken_ok call.state reason htags
  cases hd : call.state.delimitCurrentToken reason tz'.cross with
  | error s =>
    rw [hd] at hok
    exact hok
  | ok d =>
    rw [hd] at hok
    obtain ⟨r, st', cross'⟩ := d
    cases r with
    | none =>
      obtain ⟨rfl, hhere, hstarted, -, hle, -⟩ := hok
      have hs : call.state.startedToken = true := hstarted.resolve_right hreason
      refine ⟨ok_new _, hhere, ?_⟩
      rw [weight_new, weight_of_started hs]
      unfold Tokenizer.weight at hw ⊢
      dsimp only
      omega
    | some r =>
      obtain ⟨rfl, hr, hnone, htoken⟩ := hok
      refine ⟨⟨htags, ?_⟩, ?_, ?_⟩
      · intro b hb
        rcases hsettled with hs | hb'
        · rw [hnone (.inr hs)] at hb
          cases hb
        · exact hb' b hb
      · have hle := r.weight_le
        change tz'.weight + r.weight < _
        by_cases hs : call.state.startedToken = true
        · rw [weight_of_started hs]
          omega
        · have hnone : r.token = none := (htoken.resolve_left hreason).resolve_left hs
          have h0 : r.weight = 0 := by
            unfold TokenizeResult.weight
            rw [hr]
            exact if_pos ⟨hnone, (hempty.resolve_left hs).symm⟩
          omega
      · intro hstc
        obtain ⟨hne, hterm⟩ := hterm (hr ▸ hstc)
        exact ⟨hchars ▸ hne, hterm⟩

theorem removeHereEndTag_some {nl : Bool}
    {d : Delimited} (h : st.removeHereEndTag nl cross = .ok (some d)) :
    ∃ body, delimitCurrentToken { st with tokenSoFar := body } .hereDocumentBodyEnd cross =
      .ok d := by
  unfold removeHereEndTag at h
  split at h
  · cases h
  split at h
  · cases h
  rename_i body _
  split_ifs at h
  rotate_left
  · cases h
  cases hd : delimitCurrentToken { st with tokenSoFar := body } .hereDocumentBodyEnd cross with
  | error s =>
    rw [hd] at h
    cases h
  | ok d' =>
    rw [hd] at h
    cases h
    exact ⟨body, hd⟩

theorem removeHereEndTag_error {nl : Bool}
    {s : Stop} (h : st.removeHereEndTag nl cross = .error s) :
    ∃ body, body <+: st.tokenSoFar ∧
      delimitCurrentToken { st with tokenSoFar := body } .hereDocumentBodyEnd cross = .error s := by
  unfold removeHereEndTag at h
  split at h
  · cases h
  split at h
  · cases h
  rename_i body hstrip
  split_ifs at h
  cases hd : delimitCurrentToken { st with tokenSoFar := body } .hereDocumentBodyEnd cross with
  | error s' =>
    rw [hd] at h
    cases h
    refine ⟨body, ?_, hd⟩
    unfold stripSuffix at hstrip
    split_ifs at hstrip
    cases hstrip
    exact List.take_prefix _ _
  | ok d =>
    rw [hd] at h
    cases h

/-- What is left where the tag of a here-document was found: the next token, or nothing changed
but the here-documents. -/
theorem removeHereEndTag_ok (st : TokenParseState) (nl : Bool)
    (hhere : cross.HereOk) (hstate : cross.hereState ≠ .none) :
    match st.removeHereEndTag nl cross with
    | .error s => ∀ p, s ≠ .panic p
    | .ok none => True
    | .ok (some (none, st', cross')) => st' = new cross.cursor ∧ cross'.HereOk ∧
        cross'.weight ≤ cross.weight + 21 ∧
        (cross.hereState = .inHereDocs → cross'.weight < cross.weight) ∧
        (st.tokenSoFar = [] →
          ∃ tag tags, cross.currentHereTags = tag :: tags ∧ hereEndTag tag nl = [])
    | .ok (some (some _, _, _)) => False := by
  unfold removeHereEndTag
  cases htags : cross.currentHereTags with
  | nil => trivial
  | cons tag tags =>
    dsimp only
    cases hs : stripSuffix (hereEndTag tag nl) st.tokenSoFar with
    | none => trivial
    | some body =>
      dsimp only
      split_ifs with hbody
      · have hok := delimitCurrentToken_ok { st with tokenSoFar := body } .hereDocumentBodyEnd
          hhere.tags
        cases hd : delimitCurrentToken { st with tokenSoFar := body } .hereDocumentBodyEnd
            cross with
        | error e =>
          rw [hd] at hok
          exact hok
        | ok d =>
          rw [hd] at hok
          obtain ⟨r, st', cross'⟩ := d
          cases r with
          | some r => exact hstate (hok.2.2.1 (.inl rfl))
          | none =>
            obtain ⟨hst', hhere', -, -, hle, hlt⟩ := hok
            refine ⟨hst', hhere', hle, hlt, fun hnil => ⟨tag, tags, rfl, ?_⟩⟩
            unfold stripSuffix at hs
            split_ifs at hs with hsuf
            rw [hnil] at hsuf
            exact List.suffix_nil.1 (List.isSuffixOf_iff_suffix.1 hsuf)
      · trivial

theorem hereDocRound_ok (hchars : tz.chars = c :: rest) (hhere : tz.cross.HereOk)
    (hstate : tz.cross.hereState = .inHereDocs) (hst : call.state.Ok) :
    RoundOk call tz (hereDocRound call.state tz c) := by
  have hne : tz.chars ≠ [] := by simp [hchars]
  unfold hereDocRound
  dsimp only
  split_ifs with htab hnl
  · exact roundOk_consume hne hst (Tokenizer.advance_hereOk 1 hhere) Nat.one_pos (Nat.le_refl _)
  · have hok := removeHereEndTag_ok (call.state.append [c]) true
      (Tokenizer.advance_hereOk 1 hhere) (by
        change tz.cross.hereState ≠ .none
        rw [hstate]
        exact nofun)
    cases hr : (call.state.append [c]).removeHereEndTag true (tz.advance 1).cross with
    | error s =>
      rw [hr] at hok
      exact hok
    | ok d =>
      rw [hr] at hok
      obtain _ | ⟨_ | r, st', cross'⟩ := d
      · exact roundOk_consume hne (ok_append (by simp)) (Tokenizer.advance_hereOk 1 hhere)
          Nat.one_pos (Nat.le_refl _)
      · obtain ⟨rfl, hhere', -, hlt, -⟩ := hok
        refine roundOk_consume hne (ok_new _) hhere' Nat.one_pos ?_
        have := hlt hstate
        unfold Tokenizer.weight
        dsimp only
        omega
      · exact hok.elim
  · exact roundOk_consume hne (ok_append (by simp)) (Tokenizer.advance_hereOk 1 hhere)
      Nat.one_pos (Nat.le_refl _)

theorem operatorEnds_chars (st : TokenParseState) :
    (operatorEnds st tz c).chars = tz.chars := by
  unfold operatorEnds
  split_ifs <;> rfl

theorem operatorEnds_weight (st : TokenParseState) :
    (operatorEnds st tz c).weight ≤ tz.weight := by
  unfold operatorEnds
  split_ifs <;>
  · simp only [Tokenizer.weight, Tokenizer.setArithmetic, Tokenizer.setHereState,
      CrossTokenParseState.weight, HereState.weight]
    omega

theorem operatorEnds_hereState (tz : Tokenizer) (c : Char) (st : TokenParseState) :
    (operatorEnds st tz c).cross.hereState = tz.cross.hereState ∨
      ∃ b, (operatorEnds st tz c).cross.hereState = .nextTokenIsHereTag b := by
  unfold operatorEnds
  split_ifs
  · exact .inl rfl
  · exact .inl rfl
  · exact .inr ⟨false, rfl⟩
  · exact .inr ⟨true, rfl⟩
  · exact .inl rfl
  · exact .inl rfl

theorem operatorEnds_currentHereTags (st : TokenParseState) :
    (operatorEnds st tz c).cross.currentHereTags = tz.cross.currentHereTags := by
  unfold operatorEnds
  split_ifs <;> rfl

theorem operatorRound_ok (hchars : tz.chars = c :: rest)
    (hhere : tz.cross.HereOk) (hst : call.state.Ok) (hop : call.state.tokenIsOperator = true) :
    RoundOk call tz (operatorRound o call.state tz c) := by
  have hstarted := hst hop
  unfold operatorRound
  by_cases hcont : call.state.unquoted = true ∧
      isOperator o (call.state.tokenSoFar ++ [c]) = true
  · rw [if_pos hcont]
    exact roundOk_consume (by simp [hchars]) (ok_append (by simp))
      (Tokenizer.advance_hereOk 1 hhere) Nat.one_pos (Nat.le_refl _)
  · rw [if_neg hcont, if_neg (by simp [hstarted])]
    refine roundOk_ofDelimited (operatorEnds_chars _) (operatorEnds_weight _) ?_
      (.inl hstarted) ?_ (.inl hstarted) ?_
    · rw [operatorEnds_currentHereTags]
      rcases operatorEnds_hereState tz c call.state with heq | ⟨b, heq⟩
      · rw [heq]
        exact hhere.tags
      · rw [heq]
        exact nofun
    · split_ifs <;> exact nofun
    · split_ifs <;> exact nofun

theorem quotingRound_ok (hchars : tz.chars = c :: rest) (hhere : tz.cross.HereOk)
    (hst : call.state.Ok) : RoundOk call tz (quotingRound call.state tz c) := by
  have hne : tz.chars ≠ [] := by simp [hchars]
  unfold quotingRound
  split_ifs
  · exact roundOk_consume hne hst (Tokenizer.advance_hereOk 2 hhere) Nat.two_pos (Nat.le_refl _)
  all_goals
    refine roundOk_consume hne (fun _ => ?_) (Tokenizer.advance_hereOk 1 hhere) Nat.one_pos
      (Nat.le_refl _)
    exact startedToken_append call.state (by simp)

theorem roundOk_enter {k : Construct} {n : Nat} (hs : s ≠ [])
    (hop : call.state.tokenIsOperator = false) (hhere : tz'.cross.HereOk) (hn : 0 < n)
    (hlen : n ≤ tz.chars.length) (hw : tz'.weight = (tz.advance n).weight)
    (hk : ∀ t o n b, k = .nested t o n b → 0 < n ∧ n < maxNesting) :
    RoundOk call tz (.enter k (call.state.append s) tz') := by
  refine ⟨startedToken_append call.state hs, hop, hhere, ?_, hk⟩
  have hle := (call.state.append s).weight_le
  rw [hw, Tokenizer.advance_weight]
  unfold Tokenizer.weight
  omega

theorem dollarRound_ok (hchars : tz.chars = c :: rest) (hhere : tz.cross.HereOk)
    (hop : call.state.tokenIsOperator = false) : RoundOk call tz (dollarRound call.state tz) := by
  have hlen : (tz.chars.drop 1).length = tz.chars.length - 1 := List.length_drop
  have hne : tz.chars ≠ [] := by simp [hchars]
  unfold dollarRound
  split
  next hd =>
    rw [hd, List.length_cons, List.length_cons] at hlen
    refine roundOk_enter (n := 3) (by simp) hop ⟨hhere.tags, hhere.settled⟩ (by omega)
      (by omega) rfl ?_
    rintro _ _ _ _ ⟨⟩
    decide
  next hd =>
    rw [hd, List.length_cons] at hlen
    refine roundOk_enter (n := 2) (by simp) hop ⟨hhere.tags, hhere.settled⟩ (by omega)
      (by omega) rfl ?_
    rintro _ _ _ _ ⟨⟩
    decide
  next hd =>
    rw [hd, List.length_cons] at hlen
    refine roundOk_enter (n := 2) (by simp) hop ⟨hhere.tags, hhere.settled⟩ (by omega)
      (by omega) rfl ?_
    rintro _ _ _ _ ⟨⟩
    decide
  next hd =>
    rw [hd, List.length_cons] at hlen
    refine roundOk_enter (n := 2) (by simp) hop ⟨hhere.tags, hhere.settled⟩ (by omega)
      (by omega) rfl ?_
    rintro _ _ _ _ ⟨⟩
  next =>
    exact roundOk_consume hne (ok_append (by simp)) (Tokenizer.advance_hereOk 1 hhere)
      Nat.one_pos (Nat.le_refl _)

theorem backquoteRound_ok (hchars : tz.chars = c :: rest) (hhere : tz.cross.HereOk) :
    RoundOk call tz (backquoteRound call.state tz) := by
  unfold backquoteRound
  split
  · exact nofun
  · exact roundOk_consume (by simp [hchars]) (ok_append (by simp))
      (Tokenizer.advance_hereOk _ hhere) (Nat.succ_pos _) (Nat.le_refl _)

theorem extglobRound_ok (hchars : tz.chars = c :: rest) (hhere : tz.cross.HereOk) :
    RoundOk call tz (extglobRound call.state tz) := by
  unfold extglobRound
  split
  · exact nofun
  · exact roundOk_consume (by simp [hchars]) (ok_append (by simp))
      (Tokenizer.advance_hereOk _ hhere) (Nat.succ_pos _) (Nat.le_refl _)

theorem Tokenizer.advance_weight_le (tz : Tokenizer) (n : Nat) :
    (tz.advance n).weight ≤ tz.weight := by
  rw [advance_weight]
  unfold Tokenizer.weight
  omega

theorem blankRound_ok (hchars : tz.chars = c :: rest) (hhere : tz.cross.HereOk)
    (hop : call.state.tokenIsOperator = false) :
    RoundOk call tz (blankRound call tz c) := by
  have hne : tz.chars ≠ [] := by simp [hchars]
  unfold blankRound
  dsimp only
  by_cases hs : call.state.startedToken = true
  · rw [if_pos hs]
    have hok : RoundOk call tz (.ofDelimited tz
        (call.state.delimitCurrentToken .nonNewLineBlank tz.cross)) :=
      roundOk_ofDelimited rfl (Nat.le_refl _) hhere.tags (.inl hs) nofun (.inl hs) nofun
    cases hr : Round.ofDelimited tz
        (call.state.delimitCurrentToken .nonNewLineBlank tz.cross) with
    | more st' tz' =>
      rw [hr] at hok
      obtain ⟨hst', hhere', hlt⟩ := hok
      have hle := tz'.advance_weight_le 1
      exact ⟨hst', Tokenizer.advance_hereOk 1 hhere', by omega⟩
    | done r tz' =>
      rw [hr] at hok
      obtain ⟨hhere', hlt, -⟩ := hok
      have hle := tz'.advance_weight_le 1
      have hreason : r.reason = .nonNewLineBlank := by
        have hspec := delimitCurrentToken_ok call.state .nonNewLineBlank hhere.tags
        cases hd : call.state.delimitCurrentToken .nonNewLineBlank tz.cross with
        | error e =>
          rw [hd] at hr
          cases hr
        | ok d =>
          rw [hd] at hr hspec
          obtain ⟨_ | r', st', cross'⟩ := d
          · cases hr
          · cases hr
            exact hspec.2.1
      refine ⟨Tokenizer.advance_hereOk 1 hhere', by omega, fun hstc => ?_⟩
      rw [hreason] at hstc
      cases hstc
    | enter k st' tz' =>
      rw [hr] at hok
      exact hok
    | stop s =>
      rw [hr] at hok
      exact hok
  · rw [if_neg hs]
    split_ifs
    · exact roundOk_consume hne (ok_append (by simp)) (Tokenizer.advance_hereOk 1 hhere)
        Nat.one_pos (Nat.le_refl _)
    · refine roundOk_consume hne (fun h => ?_) (Tokenizer.advance_hereOk 1 hhere) Nat.one_pos
        (Nat.le_refl _)
      rw [hop] at h
      cases h

/-- **Rounds.** A round on a character does not panic, and brings the end nearer. -/
theorem charRound_ok (hchars : tz.chars = c :: rest)
    (hhere : tz.cross.HereOk) (hst : call.state.Ok) :
    RoundOk call tz (charRound o call tz c) := by
  have hne : tz.chars ≠ [] := by simp [hchars]
  have hconsume : ∀ {st' : TokenParseState}, st'.Ok →
      RoundOk call tz (.more st' (tz.advance 1)) := fun hst' =>
    roundOk_consume hne hst' (Tokenizer.advance_hereOk 1 hhere) Nat.one_pos (Nat.le_refl _)
  have happend : (call.state.append [c]).Ok := ok_append (by simp)
  apply charRound_cases (P := RoundOk call tz)
  case hereDoc => exact fun hin => hereDocRound_ok hchars hhere hin hst
  case terminating =>
    intro _ hterm
    exact roundOk_ofDelimited rfl (Nat.le_refl _) hhere.tags (.inr hhere.settled) nofun
      (.inr (.inr rfl)) fun _ => ⟨hne, by rw [hterm]; exact nofun⟩
  case operator => exact fun hop => operatorRound_ok hchars hhere hst hop
  case quoting => exact fun _ _ => quotingRound_ok hchars hhere hst
  case closing => exact fun _ _ => hconsume happend
  case escaped => exact fun _ _ => hconsume happend
  case dollar => exact fun hop _ => dollarRound_ok hchars hhere hop
  case backquote => exact fun _ _ => backquoteRound_ok hchars hhere
  case extglob => exact fun _ _ => extglobRound_ok hchars hhere
  case operatorStart =>
    exact fun hstart _ => roundOk_ofDelimited rfl (Nat.le_refl _) hhere.tags
      (.inr hhere.settled) nofun (.inl hstart) nofun
  case operatorChar =>
    exact fun _ _ _ => hconsume fun _ => startedToken_append call.state (by simp)
  case blank => exact fun hop _ _ _ => blankRound_ok hchars hhere hop
  case comment =>
    intro _ _ hc
    refine roundOk_consume hne hst (Tokenizer.advance_hereOk _ hhere) ?_ (Nat.le_refl _)
    rw [hchars, hc]
    exact Nat.succ_pos _
  case word => exact fun _ _ _ => hconsume happend

/-- A round at the end of the input brings the end nearer too, unless a here-document with an
empty tag is still to come. -/
theorem endOfInputRound_ok (hhere : tz.cross.HereOk)
    (haw : ¬ Awaits call.state tz.cross) : RoundOk call tz (endOfInputRound call.state tz) := by
  unfold endOfInputRound
  by_cases hesc : call.state.inEscape = true
  · rw [if_pos hesc]
    exact nofun
  rw [if_neg hesc]
  cases hquote : call.state.quoteMode with
  | ansiC pos => exact nofun
  | single pos => exact nofun
  | double pos => exact nofun
  | none =>
    dsimp only
    by_cases hnone : tz.cross.hereState = .none
    · rw [if_pos hnone]
      exact roundOk_ofDelimited rfl (Nat.le_refl _) hhere.tags (.inr hhere.settled) nofun
        (.inr (.inl rfl)) nofun
    rw [if_neg hnone]
    have hok := removeHereEndTag_ok call.state false hhere hnone
    cases hr : call.state.removeHereEndTag false tz.cross with
    | error s =>
      rw [hr] at hok
      exact hok
    | ok d =>
      rw [hr] at hok
      obtain _ | ⟨_ | r, st', cross'⟩ := d
      · exact nofun
      · obtain ⟨rfl, hhere', hle, hlt, htag⟩ := hok
        refine ⟨ok_new _, hhere', ?_⟩
        rw [weight_new]
        unfold Tokenizer.weight
        dsimp only
        by_cases hs : call.state.startedToken = true
        · rw [weight_of_started hs]
          omega
        · have hnil : call.state.tokenSoFar = [] := by
            by_contra hne
            exact hs (startedToken_iff.2 hne)
          by_cases hin : tz.cross.hereState = .inHereDocs
          · have := hlt hin
            omega
          · have hunq : call.state.unquoted = true := by
              unfold unquoted
              rw [hquote, Bool.eq_false_iff.2 hesc]
              rfl
            exact absurd ⟨hnil, hunq, ⟨hnone, hin⟩, htag hnil⟩ haw
      · exact hok.elim

end Seahaven.Parser
