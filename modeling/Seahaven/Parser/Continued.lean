import Seahaven.Parser.Panics
import Mathlib.Data.List.TakeWhile

/-!
# Going on after the end of the input

The tokenizer on a text and on a continuation of it. Until the text is used up the two runs are
alike; after that the first has an empty input before it.

1. `Machine.Heads` holds in every state of a run: a token that begins with a newline is one.
2. `step_extend`: a step is the same with more input, or the input is used up (`Machine.Spent`), or
   the step fails for want of a here-document tag, and then it fails with more input too.
3. `Spent.step`: with the input used up only incomplete errors are left.
4. `faithful_iff`: when what the tokenizer says of a text can be relied on for its continuations.
-/

variable {n : Nat}

namespace Seahaven.Parser

open TokenParseState

/-- `TokenizerError::is_incomplete`. -/
def TokenizerError.isIncomplete : TokenizerError → Bool
  | .unterminatedEscapeSequence => true
  | .unterminatedAnsiCQuote _ => true
  | .unterminatedSingleQuote _ => true
  | .unterminatedDoubleQuote _ => true
  | .unterminatedBackquote _ => true
  | .unterminatedExpansion => true
  | .unterminatedVariable => true
  | .unterminatedExtendedGlob _ => true
  | .unterminatedHereDocuments _ => true
  | .missingHereTagForDocumentBody => false
  | .missingHereTag _ => false

/-! ## How tokens begin -/

/-- A quote belongs to a token, and a token that begins with a newline is the newline, except in
the body of a here-document. -/
structure TokenParseState.Headed (st : TokenParseState) (hereState : HereState) : Prop where
  quoted : st.unquoted = false → st.tokenSoFar ≠ []
  newline : hereState ≠ .inHereDocs → st.tokenSoFar.head? = some '\n' →
    st.tokenSoFar = ['\n'] ∧ st.tokenIsOperator = true ∧ st.unquoted = true

/-- A word that does not begin with a newline. -/
structure TokenParseState.InWord (st : TokenParseState) : Prop where
  word : st.tokenIsOperator = false
  head : ∃ c, st.tokenSoFar.head? = some c ∧ c ≠ '\n'

theorem headed_new (p : SourcePosition) (h : HereState) : (new p).Headed h :=
  ⟨nofun, fun _ hn => by cases hn⟩

variable {st : TokenParseState}

theorem TokenParseState.InWord.headed (hst : st.InWord) (h : HereState) :
    st.Headed h := by
  obtain ⟨c, hc, hne⟩ := hst.head
  refine ⟨fun _ hnil => ?_, fun _ hn => ?_⟩
  · rw [hnil] at hc
    cases hc
  · rw [hn] at hc
    exact absurd (Option.some.inj hc).symm hne

theorem TokenParseState.InWord.append (hst : st.InWord) (s : List Char) :
    (st.append s).InWord := by
  obtain ⟨c, hc, hne⟩ := hst.head
  refine ⟨hst.word, c, ?_, hne⟩
  unfold TokenParseState.append
  rw [List.head?_append, hc]
  rfl

theorem inWord_append {h : HereState} (hst : st.Headed h)
    (hh : h ≠ .inHereDocs) (hop : st.tokenIsOperator = false) {c : Char} (s : List Char)
    (hc : st.unquoted = true → c ≠ '\n') : (st.append (c :: s)).InWord := by
  refine ⟨hop, ?_⟩
  unfold TokenParseState.append
  cases hhead : st.tokenSoFar with
  | nil =>
    refine ⟨c, rfl, hc ?_⟩
    by_contra hq
    exact hst.quoted (Bool.eq_false_iff.2 hq) hhead
  | cons d l =>
    refine ⟨d, rfl, ?_⟩
    rintro rfl
    have := (hst.newline hh (by rw [hhead]; rfl)).2.1
    rw [hop] at this
    cases this

/-! ## What a round keeps -/

def RoundHeaded : Round → Prop
  | .more st tz => st.Headed tz.cross.hereState
  | .enter _ st _ => st.InWord
  | _ => True

variable {reason : TokenEndReason} {cross : CrossTokenParseState}

theorem delimit_none {st' : TokenParseState}
    {cross' : CrossTokenParseState}
    (h : st.delimitCurrentToken reason cross = .ok (none, st', cross')) :
    st' = new cross.cursor := by
  unfold delimitCurrentToken at h
  by_cases hno : st.startedToken = false ∧ reason ≠ .hereDocumentBodyEnd
  · rw [if_pos hno] at h
    cases h
  rw [if_neg hno] at h
  dsimp only at h
  split at h
  · cases h
    rfl
  · split at h
    · cases h
    · cases h
      rfl
  · split at h
    · cases h
    · cases h
      rfl
  · split at h
    · cases h
    · cases h
      rfl
  · cases h

theorem ofDelimited_headed {tz : Tokenizer} :
    RoundHeaded (.ofDelimited tz (st.delimitCurrentToken reason cross)) := by
  cases hd : st.delimitCurrentToken reason cross with
  | error s => trivial
  | ok d =>
    obtain ⟨_ | r, st', cross'⟩ := d
    · obtain rfl := delimit_none hd
      exact headed_new _ _
    · trivial

variable {d : Delimited}

theorem ofRemoved_headed {tz : Tokenizer} {nl : Bool}
    (h : st.removeHereEndTag nl cross = .ok (some d)) : RoundHeaded (.ofDelimited tz (.ok d)) := by
  obtain ⟨body, hd⟩ := removeHereEndTag_some h
  rw [← hd]
  exact ofDelimited_headed

theorem hereDocRound_headed {tz : Tokenizer} {c : Char}
    (hst : st.Headed tz.cross.hereState) (hin : tz.cross.hereState = .inHereDocs) :
    RoundHeaded (hereDocRound st tz c) := by
  have happend : (st.append [c]).Headed tz.cross.hereState := by
    refine ⟨fun _ => ?_, fun hne => absurd hin hne⟩
    unfold TokenParseState.append
    simp
  unfold hereDocRound
  dsimp only
  split_ifs with htab hnl
  · exact hst
  · cases hr : (st.append [c]).removeHereEndTag true (tz.advance 1).cross with
    | error s => trivial
    | ok d =>
      cases d with
      | none => exact happend
      | some d => exact ofRemoved_headed hr
  · exact happend

theorem isOperator_newline (o : TokenizerOptions) (c : Char) : isOperator o ['\n', c] = false := by
  simp [isOperator]

theorem operatorRound_headed {o : TokenizerOptions} {tz : Tokenizer}
    {c : Char} (hst : st.Headed tz.cross.hereState) (hop : st.tokenIsOperator = true) :
    RoundHeaded (operatorRound o st tz c) := by
  unfold operatorRound
  split_ifs with hcont hstart
  · refine ⟨fun _ => ?_, fun hne hhead => ?_⟩
    · unfold TokenParseState.append
      simp
    · unfold TokenParseState.append at hhead ⊢
      cases htoken : st.tokenSoFar with
      | nil =>
        rw [htoken] at hhead
        obtain rfl : c = '\n' := Option.some.inj hhead
        exact ⟨rfl, hop, hcont.1⟩
      | cons d l =>
        rw [htoken] at hhead
        have hnl := (hst.newline hne (by rw [htoken]; exact hhead)).1
        have hno := isOperator_newline o c
        rw [hnl] at hcont
        exact absurd (hcont.2.symm.trans hno) nofun
  · trivial
  · exact ofDelimited_headed
  · exact ofDelimited_headed

variable {call : Call}

/-- **Rounds.** How tokens begin is kept. -/
theorem charRound_headed {o : TokenizerOptions} {tz : Tokenizer} {c : Char}
    (hst : call.state.Headed tz.cross.hereState) : RoundHeaded (charRound o call tz c) := by
  by_cases hin : tz.cross.hereState = .inHereDocs
  · unfold charRound
    rw [if_pos hin]
    exact hereDocRound_headed hst hin
  -- a character that is appended to a word
  have hword : call.state.tokenIsOperator = false → ∀ {d : Char} (s : List Char)
      {st : TokenParseState}, (call.state.unquoted = true → d ≠ '\n') →
        st.tokenSoFar = call.state.tokenSoFar ++ d :: s → st.tokenIsOperator = false →
          st.Headed tz.cross.hereState := by
    intro hop d s st hd htoken hop'
    have hword := inWord_append hst hin hop s hd
    exact TokenParseState.InWord.headed ⟨hop', by rw [htoken]; exact hword.head⟩ _
  apply charRound_cases (P := RoundHeaded)
  case hereDoc => exact hereDocRound_headed hst
  case terminating => exact fun _ _ => ofDelimited_headed
  case operator => exact operatorRound_headed hst
  case quoting =>
    intro hop hquote
    unfold quotingRound
    split_ifs with h₁ h₂ h₃
    · exact hst
    · exact hword hop [] (fun _ => by rw [h₁]; decide) rfl hop
    · exact hword hop [] (fun _ => by rw [h₃]; decide) rfl hop
    · exact hword hop [] (fun _ => by rw [h₃]; decide) rfl hop
    · refine hword hop [] (fun hunq => ?_) rfl hop
      rintro rfl
      unfold newlyAffectsQuoting at hquote
      unfold unquoted at hunq
      simp only [Bool.and_eq_true, Bool.not_eq_true', beq_iff_eq] at hunq hquote
      rw [hunq.2] at hquote
      exact absurd hquote.2 (by decide)
  case closing =>
    rintro hop hc
    refine hword hop [] (fun _ => ?_) rfl hop
    rcases hc with rfl | rfl <;> decide
  case escaped =>
    intro hop hesc
    refine hword hop [] (fun hunq => ?_) rfl hop
    unfold unquoted at hunq
    rw [hesc] at hunq
    cases hunq
  case dollar =>
    intro hop _
    have henter : ∀ s, (call.state.append ('$' :: s)).InWord := fun s =>
      inWord_append hst hin hop s fun _ => by decide
    unfold dollarRound
    split
    · exact henter ['(', '(']
    · exact henter ['(']
    · exact henter ['[']
    · exact henter ['\x7b']
    · exact (henter []).headed _
  case backquote =>
    intro hop _
    unfold backquoteRound
    split
    · trivial
    · exact hword hop _ (fun _ => by decide) rfl hop
  case extglob =>
    intro hop _
    unfold extglobRound
    split
    · trivial
    · exact hword hop _ (fun _ => by decide) rfl hop
  case operatorStart => exact fun _ _ => ofDelimited_headed
  case operatorChar =>
    intro hunq hstart _
    have hnil : call.state.tokenSoFar = [] := by
      by_contra hne
      exact absurd (hstart.symm.trans (startedToken_iff.2 hne)) nofun
    refine ⟨fun _ => by simp [TokenParseState.append], fun _ hhead => ?_⟩
    unfold TokenParseState.append at hhead ⊢
    rw [hnil] at hhead ⊢
    obtain rfl : c = '\n' := Option.some.inj hhead
    exact ⟨rfl, rfl, hunq⟩
  case blank =>
    intro hop _ hblank _
    unfold blankRound
    dsimp only
    split_ifs
    · have hround : RoundHeaded (.ofDelimited tz
          (call.state.delimitCurrentToken .nonNewLineBlank tz.cross)) := ofDelimited_headed
      split
      · rename_i st' tz' he
        rw [he] at hround
        exact hround
      · trivial
      · exact hround
    · refine hword hop [] (fun _ => ?_) rfl hop
      rintro rfl
      cases hblank
    · exact ⟨hst.quoted, hst.newline⟩
  case comment => exact fun _ _ _ => hst
  case word =>
    intro hop _ hunq
    refine hword hop [] (fun h => ?_) rfl hop
    rintro rfl
    exact absurd (hunq h).2 (by decide)

/-! ## Tags -/

def CrossTokenParseState.Tagged (cross : CrossTokenParseState) : Prop :=
  cross.hereState = .nextLineIsHereDoc → cross.currentHereTags ≠ []

def RoundTagged : Round → Prop
  | .more _ tz => tz.cross.Tagged
  | .done _ tz => tz.cross.Tagged
  | .enter _ _ tz => tz.cross.Tagged
  | .stop _ => True

theorem delimit_tagged (hcross : cross.Tagged)
    (h : st.delimitCurrentToken reason cross = .ok d) : d.2.2.Tagged := by
  unfold delimitCurrentToken at h
  by_cases hno : st.startedToken = false ∧ reason ≠ .hereDocumentBodyEnd
  · rw [if_pos hno] at h
    cases h
    exact hcross
  rw [if_neg hno] at h
  dsimp only at h
  split at h
  · cases h
    exact nofun
  · split at h
    · cases h
    · cases h
      exact fun _ => by simp
  · split at h
    · cases h
    · cases h
      exact fun _ => by simp
  · split at h
    · cases h
    · cases h
      intro hstate
      dsimp only at hstate
      split_ifs at hstate
  · cases h
    exact hcross

theorem ofDelimited_tagged {tz : Tokenizer} (hcross : cross.Tagged) :
    RoundTagged (.ofDelimited tz (st.delimitCurrentToken reason cross)) := by
  cases hd : st.delimitCurrentToken reason cross with
  | error s => trivial
  | ok d =>
    have htagged := delimit_tagged hcross hd
    obtain ⟨_ | r, st', cross'⟩ := d <;> exact htagged

theorem ofRemoved_tagged {tz : Tokenizer} {nl : Bool} (hcross : cross.Tagged)
    (h : st.removeHereEndTag nl cross = .ok (some d)) : RoundTagged (.ofDelimited tz (.ok d)) := by
  obtain ⟨body, hd⟩ := removeHereEndTag_some h
  rw [← hd]
  exact ofDelimited_tagged hcross

theorem operatorEnds_tagged {tz : Tokenizer} {c : Char} (htagged : tz.cross.Tagged)
    (st : TokenParseState) : (operatorEnds st tz c).cross.Tagged := by
  unfold operatorEnds
  split_ifs
  all_goals first | exact htagged | exact nofun

theorem charRound_tagged {o : TokenizerOptions} {tz : Tokenizer} {c : Char}
    (htagged : tz.cross.Tagged) : RoundTagged (charRound o call tz c) := by
  apply charRound_cases (P := RoundTagged)
  case hereDoc =>
    intro _
    unfold hereDocRound
    dsimp only
    split_ifs
    · exact htagged
    · cases hr : (call.state.append [c]).removeHereEndTag true (tz.advance 1).cross with
      | error s => trivial
      | ok d =>
        cases d with
        | none => exact htagged
        | some d =>
          have htagged' : (tz.advance 1).cross.Tagged := htagged
          exact ofRemoved_tagged htagged' hr
    · exact htagged
  case terminating => exact fun _ _ => ofDelimited_tagged htagged
  case operator =>
    intro _
    unfold operatorRound
    split_ifs
    · exact htagged
    · trivial
    all_goals exact ofDelimited_tagged (operatorEnds_tagged htagged _)
  case quoting =>
    intro _ _
    unfold quotingRound
    split_ifs <;> exact htagged
  case closing => exact fun _ _ => htagged
  case escaped => exact fun _ _ => htagged
  case dollar =>
    intro _ _
    unfold dollarRound
    split <;> exact htagged
  case backquote =>
    intro _ _
    unfold backquoteRound
    split
    · trivial
    · exact htagged
  case extglob =>
    intro _ _
    unfold extglobRound
    split
    · trivial
    · exact htagged
  case operatorStart => exact fun _ _ => ofDelimited_tagged htagged
  case operatorChar => exact fun _ _ _ => htagged
  case blank =>
    intro _ _ _ _
    unfold blankRound
    dsimp only
    split_ifs
    · have hround : RoundTagged (.ofDelimited tz
          (call.state.delimitCurrentToken .nonNewLineBlank tz.cross)) := ofDelimited_tagged htagged
      split
      next he =>
        rw [he] at hround
        exact hround
      next he =>
        rw [he] at hround
        exact hround
      next => exact hround
    all_goals exact htagged
  case comment => exact fun _ _ _ => htagged
  case word => exact fun _ _ _ => htagged

/-! ## More input -/

def Tokenizer.extend (t : List Char) (tz : Tokenizer) : Tokenizer :=
  { tz with chars := tz.chars ++ t }

@[simp] theorem Tokenizer.extend_cross (t : List Char) (tz : Tokenizer) :
    (tz.extend t).cross = tz.cross := rfl

@[simp] theorem Tokenizer.extend_chars (t : List Char) (tz : Tokenizer) :
    (tz.extend t).chars = tz.chars ++ t := rfl

theorem Tokenizer.extend_advance {t : List Char} {tz : Tokenizer}
    (h : n ≤ tz.chars.length) : (tz.extend t).advance n = (tz.advance n).extend t := by
  unfold Tokenizer.advance Tokenizer.extend
  simp only [List.drop_append_of_le_length h, List.take_append_of_le_length h]

def Round.extend (t : List Char) : Round → Round
  | .more st tz => .more st (tz.extend t)
  | .done r tz => .done r (tz.extend t)
  | .enter k st tz => .enter k st (tz.extend t)
  | .stop s => .stop s

def TokenParseState.Worded (st : TokenParseState) : Prop :=
  st.tokenIsOperator = false ∨ st.tokenSoFar = []

/-- A round with which the input is used up, or found to be incomplete. -/
def Round.Late : Round → Prop
  | .more st tz => tz.chars = [] ∧ st.Worded
  | .done _ tz => tz.chars = []
  | .enter _ _ tz => tz.chars = []
  | .stop (.error e) => e.isIncomplete = true
  | .stop (.panic _) => True

variable {t : List Char} {tz : Tokenizer} {c : Char} {rest : List Char}

theorem ofDelimited_extend (x : Except Stop Delimited) :
    Round.ofDelimited (tz.extend t) x = (Round.ofDelimited tz x).extend t := by
  rcases x with s | ⟨_ | r, st, cross⟩ <;> rfl

theorem hereDocRound_extend (hchars : tz.chars = c :: rest) (st : TokenParseState) :
    hereDocRound st (tz.extend t) c = (hereDocRound st tz c).extend t := by
  have hadvance : (tz.extend t).advance 1 = (tz.advance 1).extend t :=
    Tokenizer.extend_advance (by simp [hchars])
  unfold hereDocRound
  dsimp only
  rw [hadvance, Tokenizer.extend_cross, Tokenizer.extend_cross]
  by_cases htab : (tz.cross.currentHereTags.head?.any (·.removeTabs) &&
      (!st.startedToken || st.tokenSoFar.getLast? == some '\n') && c == '\t') = true
  · rw [if_pos htab, if_pos htab]
    rfl
  rw [if_neg htab, if_neg htab]
  by_cases hnl : c = '\n'
  · rw [if_pos hnl, if_pos hnl]
    cases (st.append [c]).removeHereEndTag true (tz.advance 1).cross with
    | error s => rfl
    | ok d =>
      cases d with
      | none => rfl
      | some d => exact ofDelimited_extend _
  · rw [if_neg hnl, if_neg hnl]
    rfl

theorem operatorEnds_extend (st : TokenParseState) :
    operatorEnds st (tz.extend t) c = (operatorEnds st tz c).extend t := by
  unfold operatorEnds
  rw [Tokenizer.extend_cross]
  split_ifs <;> rfl

theorem operatorRound_extend {o : TokenizerOptions} (hchars : tz.chars = c :: rest)
    (st : TokenParseState) :
    operatorRound o st (tz.extend t) c = (operatorRound o st tz c).extend t := by
  have hadvance : (tz.extend t).advance 1 = (tz.advance 1).extend t :=
    Tokenizer.extend_advance (by simp [hchars])
  unfold operatorRound
  dsimp only
  rw [hadvance, operatorEnds_extend, Tokenizer.extend_cross]
  split_ifs
  · rfl
  · rfl
  · exact ofDelimited_extend _
  · exact ofDelimited_extend _

theorem quotingRound_extend (hchars : tz.chars = c :: rest)
    (hop : st.tokenIsOperator = false) :
    quotingRound st (tz.extend t) c = (quotingRound st tz c).extend t ∨
      (quotingRound st tz c).Late := by
  have hadvance : (tz.extend t).advance 1 = (tz.advance 1).extend t :=
    Tokenizer.extend_advance (by simp [hchars])
  unfold quotingRound
  rw [hadvance]
  by_cases hback : c = '\\'
  · rw [if_pos hback, if_pos hback]
    cases hrest : rest with
    | nil =>
      -- what is escaped is not known yet
      have hnone : (tz.chars.drop 1).head? = none := by rw [hchars, hrest]; rfl
      refine .inr ?_
      rw [hnone, if_neg nofun]
      exact ⟨by rw [Tokenizer.advance_chars, hchars, hrest]; rfl, .inl hop⟩
    | cons d rest' =>
      have htwo : (tz.extend t).advance 2 = (tz.advance 2).extend t :=
        Tokenizer.extend_advance (by simp [hchars, hrest])
      have hhead : ((tz.extend t).chars.drop 1).head? = (tz.chars.drop 1).head? := by
        rw [Tokenizer.extend_chars, hchars, hrest]
        rfl
      rw [hhead, htwo]
      refine .inl ?_
      split_ifs <;> rfl
  · rw [if_neg hback, if_neg hback]
    refine .inl ?_
    split_ifs <;> rfl

theorem dollarRound_eq (st : TokenParseState) (tz : Tokenizer) :
    dollarRound st tz =
      if (tz.chars.drop 1).take 2 = ['(', '('] then
        .enter (.nested ')' ['('] 2 true) (st.append ['$', '(', '('])
          ((tz.advance 3).setArithmetic true)
      else if (tz.chars.drop 1).head? = some '(' then
        .enter (.nested ')' ['('] 1 false) (st.append ['$', '(']) (tz.advance 2)
      else if (tz.chars.drop 1).head? = some '[' then
        .enter (.nested ']' ['['] 1 true) (st.append ['$', '[']) ((tz.advance 2).setArithmetic true)
      else if (tz.chars.drop 1).head? = some '\x7b' then
        .enter .brace (st.append ['$', '\x7b']) (tz.advance 2)
      else .more (st.append ['$']) (tz.advance 1) := by
  unfold dollarRound
  split
  next h => simp [h]
  next l hne h =>
    rw [h, if_neg, if_pos (List.head?_cons ..)]
    intro htake
    cases l with
    | nil => cases htake
    | cons d l =>
      obtain rfl : d = '(' := by simpa using htake
      exact hne l rfl
  next h => simp [h]
  next h => simp [h]
  next h₁ h₂ h₃ h₄ =>
    have hhead : ∀ d, (∀ l, tz.chars.drop 1 = d :: l → False) →
        (tz.chars.drop 1).head? ≠ some d := by
      intro d hd h
      obtain ⟨l, hl⟩ := List.head?_eq_some_iff.1 h
      exact hd l hl
    rw [if_neg, if_neg (hhead _ h₂), if_neg (hhead _ h₃), if_neg (hhead _ h₄)]
    intro htake
    refine hhead _ h₂ ?_
    rw [← List.take_append_drop 2 (tz.chars.drop 1), htake]
    rfl

theorem dollarRound_extend (hchars : tz.chars = '$' :: rest)
    (hop : st.tokenIsOperator = false) :
    dollarRound st (tz.extend t) = (dollarRound st tz).extend t ∨ (dollarRound st tz).Late := by
  have hadvance : ∀ {n}, n ≤ rest.length + 1 → (tz.extend t).advance n = (tz.advance n).extend t :=
    fun hn => Tokenizer.extend_advance (by rw [hchars]; exact hn)
  have hlate : ∀ n, rest.length < n → (tz.advance n).chars = [] := fun n hn => by
    rw [Tokenizer.advance_chars, hchars, List.drop_eq_nil_iff, List.length_cons]
    exact hn
  have hdrop : tz.chars.drop 1 = rest := by rw [hchars]; rfl
  have hdrop' : (tz.extend t).chars.drop 1 = rest ++ t := by
    rw [Tokenizer.extend_chars, hchars]
    rfl
  rw [dollarRound_eq, dollarRound_eq, hdrop, hdrop']
  match rest with
  | [] => exact .inr ⟨hlate 1 Nat.one_pos, .inl hop⟩
  | [d] =>
    by_cases hd : d = '(' ∨ d = '[' ∨ d = '\x7b'
    · refine .inr ?_
      rw [if_neg nofun]
      rcases hd with rfl | rfl | rfl
      all_goals exact hlate 2 (by decide)
    · obtain ⟨h₁, h₂, h₃⟩ : d ≠ '(' ∧ d ≠ '[' ∧ d ≠ '\x7b' := by simpa using hd
      refine .inl ?_
      rw [hadvance (n := 1) (by simp)]
      simp [h₁, h₂, h₃, Round.extend]
  | d :: e :: rest =>
    refine .inl ?_
    have htake : (d :: e :: rest ++ t).take 2 = (d :: e :: rest).take 2 := rfl
    have hhead : (d :: e :: rest ++ t).head? = (d :: e :: rest).head? := rfl
    rw [hadvance (n := 1) (by simp), hadvance (n := 2) (by simp), hadvance (n := 3) (by simp),
      htake, hhead]
    split_ifs <;> rfl

/-! ### Scans to an end -/

theorem takeBackquoted_append {escaping : Bool} {s text : List Char}
    (h : takeBackquoted escaping s = some text) (t : List Char) :
    takeBackquoted escaping (s ++ t) = some text ∧ text.length ≤ s.length := by
  induction s generalizing escaping text with
  | nil => cases h
  | cons c s ih =>
    have hmap : ∀ {b}, (takeBackquoted b s).map (c :: ·) = some text →
        (takeBackquoted b (s ++ t)).map (c :: ·) = some text ∧ text.length ≤ (c :: s).length := by
      intro b hb
      obtain ⟨text', htext, rfl⟩ := Option.map_eq_some_iff.1 hb
      obtain ⟨happend, hlen⟩ := ih htext
      rw [happend]
      exact ⟨rfl, Nat.succ_le_succ hlen⟩
    rw [List.cons_append]
    unfold takeBackquoted at h ⊢
    by_cases hesc : escaping = false ∧ c = '\\'
    · rw [if_pos hesc] at h ⊢
      exact hmap h
    rw [if_neg hesc] at h ⊢
    by_cases hend : escaping = false ∧ c = '`'
    · rw [if_pos hend] at h ⊢
      cases h
      exact ⟨rfl, Nat.succ_le_succ (Nat.zero_le _)⟩
    rw [if_neg hend] at h ⊢
    exact hmap h

theorem takeExtglob_append {depth : Nat} {inEscape : Bool} {s text : List Char}
    (h : takeExtglob depth inEscape s = some text) (t : List Char) :
    takeExtglob depth inEscape (s ++ t) = some text ∧ text.length ≤ s.length := by
  induction s generalizing depth inEscape text with
  | nil => cases h
  | cons c s ih =>
    have hmap : ∀ {d b}, (takeExtglob d b s).map (c :: ·) = some text →
        (takeExtglob d b (s ++ t)).map (c :: ·) = some text ∧ text.length ≤ (c :: s).length := by
      intro d b hb
      obtain ⟨text', htext, rfl⟩ := Option.map_eq_some_iff.1 hb
      obtain ⟨happend, hlen⟩ := ih htext
      rw [happend]
      exact ⟨rfl, Nat.succ_le_succ hlen⟩
    rw [List.cons_append]
    unfold takeExtglob at h ⊢
    by_cases hesc : inEscape = true
    · rw [if_pos hesc] at h ⊢
      exact hmap h
    rw [if_neg hesc] at h ⊢
    by_cases hback : c = '\\'
    · rw [if_pos hback] at h ⊢
      exact hmap h
    rw [if_neg hback] at h ⊢
    by_cases hopen : c = '('
    · rw [if_pos hopen] at h ⊢
      exact hmap h
    rw [if_neg hopen] at h ⊢
    by_cases hclose : c = ')'
    · rw [if_pos hclose] at h ⊢
      by_cases hdepth : depth ≤ 1
      · rw [if_pos hdepth] at h ⊢
        cases h
        exact ⟨rfl, Nat.succ_le_succ (Nat.zero_le _)⟩
      · rw [if_neg hdepth] at h ⊢
        exact hmap h
    · rw [if_neg hclose] at h ⊢
      exact hmap h

theorem backquoteRound_extend (hchars : tz.chars = c :: rest) (st : TokenParseState) :
    backquoteRound st (tz.extend t) = (backquoteRound st tz).extend t ∨
      (backquoteRound st tz).Late := by
  have hdrop : tz.chars.drop 1 = rest := by rw [hchars]; rfl
  have hdrop' : (tz.extend t).chars.drop 1 = rest ++ t := by
    rw [Tokenizer.extend_chars, hchars]
    rfl
  unfold backquoteRound
  rw [hdrop, hdrop']
  cases htake : takeBackquoted false rest with
  | none => exact .inr rfl
  | some text =>
    obtain ⟨happend, hlen⟩ := takeBackquoted_append htake t
    rw [happend]
    dsimp only
    rw [Tokenizer.extend_advance (by rw [hchars]; exact Nat.succ_le_succ hlen)]
    exact .inl rfl

theorem extglobRound_extend (hchars : tz.chars = c :: rest) (st : TokenParseState) :
    extglobRound st (tz.extend t) = (extglobRound st tz).extend t ∨
      (extglobRound st tz).Late := by
  have hdrop : tz.chars.drop 1 = rest := by rw [hchars]; rfl
  have hdrop' : (tz.extend t).chars.drop 1 = rest ++ t := by
    rw [Tokenizer.extend_chars, hchars]
    rfl
  unfold extglobRound
  rw [hdrop, hdrop']
  cases htake : takeExtglob 1 false rest with
  | none => exact .inr rfl
  | some text =>
    obtain ⟨happend, hlen⟩ := takeExtglob_append htake t
    rw [happend]
    dsimp only
    rw [Tokenizer.extend_advance (by rw [hchars]; exact Nat.succ_le_succ hlen)]
    exact .inl rfl

theorem blankRound_extend (hchars : tz.chars = c :: rest) (call : Call) :
    blankRound call (tz.extend t) c = (blankRound call tz c).extend t := by
  have hadvance : (tz.extend t).advance 1 = (tz.advance 1).extend t :=
    Tokenizer.extend_advance (by simp [hchars])
  unfold blankRound
  dsimp only
  by_cases hstarted : call.state.startedToken = true
  · rw [if_pos hstarted, if_pos hstarted, Tokenizer.extend_cross]
    rcases call.state.delimitCurrentToken .nonNewLineBlank tz.cross with s | ⟨_ | r, st, cross⟩
    · rfl
    · change Round.more _ (Tokenizer.advance (Tokenizer.extend t { tz with cross := cross }) 1) = _
      rw [Tokenizer.extend_advance (by simp [hchars])]
      rfl
    · change Round.done _ (Tokenizer.advance (Tokenizer.extend t { tz with cross := cross }) 1) = _
      rw [Tokenizer.extend_advance (by simp [hchars])]
      rfl
  · rw [if_neg hstarted, if_neg hstarted, hadvance]
    split_ifs <;> rfl

theorem commentRound_extend (hstart : st.startedToken = false) :
    Round.more st ((tz.extend t).advance ((tz.extend t).chars.takeWhile (· ≠ '\n')).length) =
        (Round.more st (tz.advance (tz.chars.takeWhile (· ≠ '\n')).length)).extend t ∨
      (Round.more st (tz.advance (tz.chars.takeWhile (· ≠ '\n')).length)).Late := by
  by_cases hline : ∀ d ∈ tz.chars, (decide (d ≠ '\n')) = true
  · refine .inr ⟨?_, .inr ?_⟩
    · rw [Tokenizer.advance_chars, List.takeWhile_eq_self_iff.2 hline, List.drop_length]
    · by_contra hne
      rw [startedToken_iff.2 hne] at hstart
      cases hstart
  · refine .inl ?_
    have htake : (tz.extend t).chars.takeWhile (· ≠ '\n') = tz.chars.takeWhile (· ≠ '\n') := by
      rw [Tokenizer.extend_chars, List.takeWhile_append, if_neg]
      intro hlen
      exact hline (List.takeWhile_eq_self_iff.1
        ((List.takeWhile_prefix _).eq_of_length hlen))
    rw [htake, Tokenizer.extend_advance (List.takeWhile_prefix _).length_le]
    rfl

theorem extend_ite {p : Prop} [Decidable p] {a a' b b' : Round}
    (ha : p → a' = a.extend t ∨ a.Late) (hb : ¬ p → b' = b.extend t ∨ b.Late) :
    (if p then a' else b') = (if p then a else b).extend t ∨ (if p then a else b).Late := by
  by_cases h : p
  · rw [if_pos h, if_pos h]
    exact ha h
  · rw [if_neg h, if_neg h]
    exact hb h

/-- **Rounds.** A round on a character is the same with more input, or the input is used up. -/
theorem charRound_extend {o : TokenizerOptions} (hchars : tz.chars = c :: rest) :
    charRound o call (tz.extend t) c = (charRound o call tz c).extend t ∨
      (charRound o call tz c).Late := by
  have hmore : ∀ st, Round.more st ((tz.extend t).advance 1) =
      (Round.more st (tz.advance 1)).extend t := fun st => by
    rw [Tokenizer.extend_advance (by simp [hchars])]
    rfl
  unfold charRound
  dsimp only
  rw [Tokenizer.extend_cross]
  refine extend_ite (fun _ => .inl (hereDocRound_extend hchars _)) fun _ => ?_
  refine extend_ite (fun _ => .inl (ofDelimited_extend _)) fun _ => ?_
  refine extend_ite (fun _ => .inl (operatorRound_extend hchars _)) fun hop => ?_
  have hop := Bool.eq_false_iff.2 hop
  refine extend_ite (fun _ => quotingRound_extend hchars hop) fun _ => ?_
  refine extend_ite (fun _ => .inl (hmore _)) fun _ => ?_
  refine extend_ite (fun _ => .inl (hmore _)) fun _ => ?_
  refine extend_ite (fun _ => .inl (hmore _)) fun _ => ?_
  refine extend_ite (fun hdollar => ?_) fun _ => ?_
  · rw [hdollar.2] at hchars
    exact dollarRound_extend hchars hop
  refine extend_ite (fun _ => backquoteRound_extend hchars _) fun _ => ?_
  refine extend_ite (fun _ => extglobRound_extend hchars _) fun _ => ?_
  refine extend_ite (fun _ => ?_) fun _ => ?_
  · exact extend_ite (fun _ => .inl (ofDelimited_extend _)) fun _ => .inl (hmore _)
  refine extend_ite (fun _ => .inl (blankRound_extend hchars call)) fun _ => ?_
  refine extend_ite (fun _ => .inl (hmore _)) fun hword => ?_
  refine extend_ite (fun _ => commentRound_extend ?_) fun _ => .inl (hmore _)
  exact Bool.eq_false_iff.2 fun h => hword (.inl h)

/-! ## The end of the input -/

theorem delimit_newline {removeTabs : Bool} {r : TokenizeResult}
    (htoken : st.tokenSoFar = ['\n'])
    (hstate : cross.hereState = .currentTokenIsHereTag removeTabs r) :
    st.delimitCurrentToken reason cross = .error (.error (.missingHereTag ['\n'])) := by
  have hstarted : st.startedToken = true := by
    rw [startedToken, htoken]
    rfl
  have hnl : st.isNewline = true := by
    rw [isNewline, htoken]
    rfl
  unfold delimitCurrentToken
  rw [if_neg (fun h => by rw [hstarted] at h; cases h.1), hstate]
  dsimp only
  rw [if_pos hnl, htoken]

theorem delimit_error {e : TokenizerError} (hcross : cross.Tagged)
    (h : st.delimitCurrentToken reason cross = .error (.error e)) :
    st.tokenSoFar = ['\n'] ∧
      ∃ removeTabs r, cross.hereState = .currentTokenIsHereTag removeTabs r := by
  unfold delimitCurrentToken at h
  by_cases hno : st.startedToken = false ∧ reason ≠ .hereDocumentBodyEnd
  · rw [if_pos hno] at h
    cases h
  rw [if_neg hno] at h
  dsimp only at h
  split at h
  · cases h
  · rename_i removeTabs r hstate
    split at h
    · rename_i hnl
      exact ⟨by simpa [isNewline] using hnl, removeTabs, r, hstate⟩
    · cases h
  · rename_i hstate
    split at h
    · rename_i hnone
      exact absurd (List.getLast?_eq_none_iff.1 hnone) (hcross hstate)
    · cases h
  · split at h <;> cases h
  · cases h

/-- The error of a token that is not to end there. -/
structure TokenParseState.Untagged (st : TokenParseState) (cross : CrossTokenParseState) :
    Prop where
  token : st.tokenSoFar = ['\n']
  isOperator : st.tokenIsOperator = true
  unquoted : st.unquoted = true
  state : ∃ removeTabs r, cross.hereState = .currentTokenIsHereTag removeTabs r

/-- **The end of the input.** It is used up, or a newline stands where a tag was to be. -/
theorem endOfInputRound_late {tz : Tokenizer} (hchars : tz.chars = [])
    (hst : st.Headed tz.cross.hereState) (htagged : tz.cross.Tagged) :
    (endOfInputRound st tz).Late ∨ (∃ e, endOfInputRound st tz = .stop (.error e)) ∧
      st.Untagged tz.cross := by
  have hdelimited : ∀ {st : TokenParseState} {reason : TokenEndReason} {d : Delimited},
      st.delimitCurrentToken reason tz.cross = .ok d → (Round.ofDelimited tz (.ok d)).Late := by
    intro st reason d hd
    obtain ⟨_ | r, st', cross'⟩ := d
    · obtain rfl := delimit_none hd
      exact ⟨hchars, .inl rfl⟩
    · exact hchars
  unfold endOfInputRound
  by_cases hesc : st.inEscape = true
  · rw [if_pos hesc]
    exact .inl rfl
  rw [if_neg hesc]
  cases hmode : st.quoteMode with
  | ansiC pos => exact .inl rfl
  | single pos => exact .inl rfl
  | double pos => exact .inl rfl
  | none =>
    dsimp only
    by_cases hnone : tz.cross.hereState = .none
    · rw [if_pos hnone]
      refine .inl ?_
      cases hd : st.delimitCurrentToken .endOfInput tz.cross with
      | ok d => exact hdelimited hd
      | error s =>
        cases s with
        | panic p => trivial
        | error e =>
          obtain ⟨-, _, _, hstate⟩ := delimit_error htagged hd
          rw [hnone] at hstate
          cases hstate
    rw [if_neg hnone]
    cases hr : st.removeHereEndTag false tz.cross with
    | ok d =>
      cases d with
      | none => exact .inl rfl
      | some d =>
        obtain ⟨body, hd⟩ := removeHereEndTag_some hr
        exact .inl (hdelimited hd)
    | error s =>
      cases s with
      | panic p => exact .inl trivial
      | error e =>
        refine .inr ⟨⟨e, rfl⟩, ?_⟩
        obtain ⟨body, hprefix, hd⟩ := removeHereEndTag_error hr
        obtain ⟨hbody, removeTabs, r, hstate⟩ := delimit_error htagged hd
        obtain rfl : body = ['\n'] := hbody
        obtain ⟨rest, htoken⟩ := hprefix
        obtain ⟨hnl, hop, hunq⟩ := hst.newline (by rw [hstate]; exact nofun)
          (by rw [← htoken]; rfl)
        exact ⟨hnl, hop, hunq, removeTabs, r, hstate⟩

theorem TokenParseState.Untagged.charRound {o : TokenizerOptions} {tz : Tokenizer}
    {c : Char}
    (h : call.state.Untagged tz.cross) :
    charRound o call tz c = .stop (.error (.missingHereTag ['\n'])) := by
  obtain ⟨removeTabs, r, hstate⟩ := h.state
  have hstarted : call.state.startedToken = true := by
    rw [startedToken, h.token]
    rfl
  have hends : operatorEnds call.state tz c = tz := by
    unfold operatorEnds isSpecificOperator
    rw [h.token]
    simp
  unfold Seahaven.Parser.charRound
  rw [if_neg (by rw [hstate]; exact nofun)]
  by_cases hterm : call.state.unquoted = true ∧ call.terminatingChar = some c
  · rw [if_pos hterm, delimit_newline h.token hstate]
    rfl
  rw [if_neg hterm, if_pos h.isOperator]
  unfold operatorRound
  rw [if_neg (by
      rw [h.token, List.singleton_append, isOperator_newline]
      exact fun h => nomatch h.2),
    if_neg (by rw [hstarted]; exact nofun), hends]
  dsimp only
  rw [delimit_newline h.token hstate]
  rfl

theorem endOfInputRound_keeps {tz : Tokenizer}
    (htagged : tz.cross.Tagged) :
    RoundHeaded (endOfInputRound st tz) ∧ RoundTagged (endOfInputRound st tz) := by
  unfold endOfInputRound
  by_cases hesc : st.inEscape = true
  · rw [if_pos hesc]
    exact ⟨trivial, trivial⟩
  rw [if_neg hesc]
  cases st.quoteMode with
  | ansiC pos => exact ⟨trivial, trivial⟩
  | single pos => exact ⟨trivial, trivial⟩
  | double pos => exact ⟨trivial, trivial⟩
  | none =>
    dsimp only
    by_cases hnone : tz.cross.hereState = .none
    · rw [if_pos hnone]
      exact ⟨ofDelimited_headed, ofDelimited_tagged htagged⟩
    rw [if_neg hnone]
    cases hr : st.removeHereEndTag false tz.cross with
    | error s => exact ⟨trivial, trivial⟩
    | ok d =>
      cases d with
      | none => exact ⟨trivial, trivial⟩
      | some d => exact ⟨ofRemoved_headed hr, ofRemoved_tagged htagged hr⟩

/-! ## Constructs -/

def Taken.extend (t : List Char) : Taken → Taken
  | .more l st tz => .more l st (tz.extend t)
  | .ended st tz => .ended st (tz.extend t)
  | .stop s => .stop s

def TakenInWord (tz : Tokenizer) : Taken → Prop
  | .more _ st tz' => st.InWord ∧ tz'.cross.Tagged ∧ (tz.chars = [] → tz'.chars = [])
  | .ended st tz' => st.InWord ∧ tz'.cross.Tagged ∧ tz.chars ≠ []
  | .stop (.error e) => e.isIncomplete = true
  | .stop (.panic _) => True

variable {l : ConstructLoop}

theorem terminate_inWord {tz : Tokenizer}
    (hst : st.InWord) (htagged : tz.cross.Tagged) : TakenInWord tz (terminate l st tz) := by
  cases hchars : tz.chars with
  | nil =>
    obtain ⟨p, hp⟩ : ∃ p, terminate l st tz = .stop (.panic p) :=
      Machine.terminate_panics hchars
    rw [hp]
    trivial
  | cons c rest =>
    have hne : tz.chars ≠ [] := by simp [hchars]
    have hnext : consumeNext st tz = .ok (st.append [c], tz.advance 1) := by
      rw [consumeNext, hchars]
    unfold terminate
    split
    · rw [hnext]
      exact ⟨hst.append _, htagged, hne⟩
    · rw [hnext]
      dsimp only
      split_ifs
      · trivial
      · exact ⟨hst.append _, htagged, hne⟩
      · exact ⟨hst.append _, htagged, hne⟩
      · exact ⟨hst.append _, htagged, fun h => absurd h hne⟩

theorem terminate_extend (hchars : tz.chars = c :: rest) :
    terminate l st (tz.extend t) = (terminate l st tz).extend t := by
  have hnext : consumeNext st tz = .ok (st.append [c], tz.advance 1) := by
    rw [consumeNext, hchars]
  have hnext' : consumeNext st (tz.extend t) = .ok (st.append [c], (tz.advance 1).extend t) := by
    rw [consumeNext, Tokenizer.extend_chars, hchars, Tokenizer.extend_advance (by simp [hchars])]
    rfl
  unfold terminate
  rw [hnext, hnext']
  split
  · rfl
  · dsimp only
    split_ifs <;> rfl

theorem takeToken_inWord {r : TokenizeResult}
    {tz : Tokenizer} (hst : st.InWord) (htagged : tz.cross.Tagged) :
    TakenInWord tz (takeToken l r st tz) := by
  unfold takeToken
  split_ifs
  · exact ⟨hst, htagged, id⟩
  cases hcount : countOpen l r with
  | error s =>
    obtain rfl := Machine.countOpen_error hcount
    trivial
  | ok l' =>
    dsimp only
    split
    · exact ⟨(hst.append _).append _, htagged, id⟩
    · exact ⟨(hst.append _).append _, htagged, id⟩
    · exact terminate_inWord (hst.append _) htagged
    · change TokenizerError.isIncomplete l'.construct.unterminated = true
      cases l'.construct <;> rfl
    · exact ⟨hst.append _, htagged, id⟩

theorem takeToken_extend (l : ConstructLoop) (r : TokenizeResult) (st : TokenParseState) :
    takeToken l r st (tz.extend t) = (takeToken l r st tz).extend t ∨
      ∃ p, takeToken l r st tz = .stop (.panic p) := by
  unfold takeToken
  split_ifs
  · exact .inl rfl
  cases countOpen l r with
  | error s => exact .inl rfl
  | ok l' =>
    dsimp only
    split
    · exact .inl rfl
    · exact .inl rfl
    · cases hchars : tz.chars with
      | nil => exact .inr (Machine.terminate_panics hchars)
      | cons c rest => exact .inl (terminate_extend hchars)
    · exact .inl rfl
    · exact .inl rfl

/-! ## Machines -/

namespace Machine

def extend (t : List Char) (m : Machine) : Machine := { m with tz := m.tz.extend t }

/-- How the tokens under way begin. -/
structure Heads (m : Machine) : Prop where
  tagged : m.tz.cross.Tagged
  outer : ∀ e ∈ m.outer, e.2.state.InWord
  call : ∀ call, m.mode = .call call → call.state.Headed m.tz.cross.hereState

/-- The input is used up, and no operator is under way. -/
structure Spent (m : Machine) : Prop where
  chars : m.tz.chars = []
  call : ∀ call, m.mode = .call call → call.state.Worded

end Machine

open Machine

def Outcome.extend (t : List Char) : Outcome → Outcome
  | .next m => .next (m.extend t)
  | .finished tokens => .finished tokens
  | .stopped s => .stopped s

def Outcome.Late : Outcome → Prop
  | .next m => m.Spent
  | .stopped (.error e) => e.isIncomplete = true
  | _ => True

def Outcome.Heads : Outcome → Prop
  | .next m => m.Heads
  | _ => True

namespace Machine

theorem heads_init (input : List Char) : (init input).Heads :=
  ⟨nofun, List.forall_mem_nil _, nofun⟩

variable {o : TokenizerOptions} {m : Machine}

theorem stepCall_heads (h : m.Heads) (call : Call)
    (hround : RoundHeaded (nextTokenRound o call m.tz))
    (htagged : RoundTagged (nextTokenRound o call m.tz)) : (m.stepCall o call).Heads := by
  unfold stepCall
  cases hr : nextTokenRound o call m.tz with
  | more st tz =>
    rw [hr] at hround htagged
    refine ⟨htagged, h.outer, ?_⟩
    rintro _ ⟨⟩
    exact hround
  | done r tz =>
    rw [hr] at htagged
    exact ⟨htagged, h.outer, by rintro _ ⟨⟩⟩
  | enter k st tz =>
    rw [hr] at hround htagged
    exact ⟨htagged, List.forall_mem_cons.2 ⟨hround, h.outer⟩, by rintro _ ⟨⟩⟩
  | stop s => trivial

variable {outer : List (ConstructLoop × Call)}

theorem afterTaken_heads {taken : Taken}
    (houter : ∀ e ∈ outer, e.2.state.InWord) (htaken : TakenInWord m.tz taken) :
    (m.afterTaken call outer taken).Heads := by
  cases taken with
  | more l st tz =>
    exact ⟨htaken.2.1, List.forall_mem_cons.2 ⟨htaken.1, houter⟩, by rintro _ ⟨⟩⟩
  | ended st tz =>
    refine ⟨htaken.2.1, houter, ?_⟩
    rintro _ ⟨⟩
    exact htaken.1.headed _
  | stop s => trivial

/-- **Step lemma.** How tokens begin is kept. -/
theorem step_heads (h : m.Heads) : (m.step o).Heads := by
  unfold step
  cases hmode : m.mode with
  | call call =>
    dsimp only
    have hst := h.call call hmode
    apply stepCall_heads h
    · unfold nextTokenRound
      split
      · trivial
      split
      · exact (endOfInputRound_keeps h.tagged).1
      · exact charRound_headed hst
    · unfold nextTokenRound
      split
      · exact h.tagged
      split
      · exact (endOfInputRound_keeps h.tagged).2
      · exact charRound_tagged h.tagged
  | loop =>
    dsimp only
    unfold stepLoop
    split
    · rename_i houter
      refine ⟨h.tagged, by rw [houter]; exact List.forall_mem_nil _, ?_⟩
      rintro _ ⟨⟩
      exact headed_new _ _
    · rename_i l call outer houter
      have hmem := List.forall_mem_cons.1 (houter ▸ h.outer)
      split
      · exact afterTaken_heads hmem.2 (takeToken_inWord hmem.1 h.tagged)
      · refine ⟨h.tagged, h.outer, ?_⟩
        rintro _ ⟨⟩
        exact headed_new _ _
  | result r =>
    dsimp only
    unfold stepResult
    split
    · rename_i houter
      split
      · exact ⟨h.tagged, h.outer, by rintro _ ⟨⟩⟩
      · split_ifs
        · trivial
        · exact ⟨h.tagged, h.outer, by rintro _ ⟨⟩⟩
    · rename_i l call outer houter
      have hmem := List.forall_mem_cons.1 (houter ▸ h.outer)
      split_ifs
      · exact ⟨h.tagged, List.forall_mem_cons.2 ⟨hmem.1, hmem.2⟩, by rintro _ ⟨⟩⟩
      · exact afterTaken_heads hmem.2 (takeToken_inWord hmem.1 h.tagged)

/-! ## Steps with more input -/

theorem afterTaken_extend (taken : Taken) :
    (m.extend t).afterTaken call outer (taken.extend t) =
      (m.afterTaken call outer taken).extend t := by
  cases taken <;> rfl

theorem afterTaken_late {taken : Taken}
    (hchars : m.tz.chars = []) (htaken : TakenInWord m.tz taken) :
    (m.afterTaken call outer taken).Late := by
  cases taken with
  | more l st tz => exact ⟨htaken.2.2 hchars, by rintro _ ⟨⟩⟩
  | ended st tz => exact absurd hchars htaken.2.2
  | stop s =>
    cases s with
    | panic p => trivial
    | error e => exact htaken

theorem takes_extend (l : ConstructLoop) (r : TokenizeResult) (call : Call)
    (outer : List (ConstructLoop × Call)) :
    (m.extend t).afterTaken call outer (takeToken l r call.state (m.tz.extend t)) =
        (m.afterTaken call outer (takeToken l r call.state m.tz)).extend t ∨
      (m.afterTaken call outer (takeToken l r call.state m.tz)).Late := by
  rcases @takeToken_extend t m.tz l r call.state with heq | ⟨p, hp⟩
  · rw [heq]
    exact .inl (afterTaken_extend _)
  · rw [hp]
    exact .inr trivial

theorem stepCall_late (h : (nextTokenRound o call m.tz).Late) :
    (m.stepCall o call).Late := by
  unfold stepCall
  cases hr : nextTokenRound o call m.tz with
  | more st tz =>
    rw [hr] at h
    refine ⟨h.1, ?_⟩
    rintro _ ⟨⟩
    exact h.2
  | done r tz =>
    rw [hr] at h
    exact ⟨h, by rintro _ ⟨⟩⟩
  | enter k st tz =>
    rw [hr] at h
    exact ⟨h, by rintro _ ⟨⟩⟩
  | stop s =>
    rw [hr] at h
    cases s with
    | panic p => trivial
    | error e => exact h

theorem stepCall_extend {round : Round}
    (h : nextTokenRound o call (m.tz.extend t) = round.extend t)
    (hr : nextTokenRound o call m.tz = round) :
    (m.extend t).stepCall o call = (m.stepCall o call).extend t := by
  unfold stepCall
  rw [hr, show nextTokenRound o call (m.extend t).tz = round.extend t from h]
  cases round <;> rfl

theorem stepLoop_extend : (m.extend t).stepLoop = m.stepLoop.extend t ∨ m.stepLoop.Late := by
  obtain ⟨tz, tokens, outer, mode⟩ := m
  cases outer with
  | nil => exact .inl rfl
  | cons e outer =>
    obtain ⟨⟨construct, pending, drain⟩, call⟩ := e
    cases drain with
    | false => exact .inl rfl
    | true =>
      cases pending with
      | nil => exact .inl rfl
      | cons r pending =>
        exact takes_extend (m := ⟨tz, tokens, (⟨construct, r :: pending, true⟩, call) :: outer,
          mode⟩) _ r call outer

theorem stepResult_extend (r : TokenizeResult) :
    (m.extend t).stepResult r = (m.stepResult r).extend t ∨ (m.stepResult r).Late := by
  obtain ⟨tz, tokens, outer, mode⟩ := m
  cases outer with
  | nil =>
    unfold stepResult
    dsimp only
    cases r.token with
    | some token => exact .inl rfl
    | none =>
      dsimp only
      by_cases hr : r.reason = .endOfInput
      · rw [if_pos hr, if_pos hr]
        exact .inl rfl
      · rw [if_neg hr, if_neg hr]
        exact .inl rfl
  | cons e outer =>
    obtain ⟨l, call⟩ := e
    unfold stepResult
    dsimp only [extend]
    by_cases hhere : isHereDocument r = true
    · rw [if_pos hhere, if_pos hhere]
      exact .inl rfl
    · rw [if_neg hhere, if_neg hhere]
      exact takes_extend (m := ⟨tz, tokens, (l, call) :: outer, mode⟩) l r call outer

theorem nextTokenRound_char {tz : Tokenizer} {c : Char} {rest : List Char}
    (hq : tz.cross.queuedTokens = []) (hchars : tz.chars = c :: rest) :
    nextTokenRound o call tz = charRound o call tz c := by
  rw [nextTokenRound, hq, hchars]

theorem callStep_extend (h : m.Heads) (ht : t ≠ []) (hmode : m.mode = .call call) :
    (m.extend t).stepCall o call = (m.stepCall o call).extend t ∨ (m.stepCall o call).Late ∨
      ∃ e, (m.extend t).stepCall o call = .stopped (.error e) := by
  cases hq : m.tz.cross.queuedTokens with
  | cons r queue =>
    have hround : nextTokenRound o call m.tz =
        .done r { m.tz with cross := { m.tz.cross with queuedTokens := queue } } := by
      rw [nextTokenRound, hq]
    refine .inl (stepCall_extend ?_ hround)
    rw [nextTokenRound, Tokenizer.extend_cross, hq]
    rfl
  | nil =>
    cases hchars : m.tz.chars with
    | cons c rest =>
      have hround : nextTokenRound o call m.tz = charRound o call m.tz c :=
        nextTokenRound_char hq hchars
      have hround' : nextTokenRound o call (m.tz.extend t) = charRound o call (m.tz.extend t) c :=
        nextTokenRound_char hq (by
          rw [Tokenizer.extend_chars, hchars]
          exact List.cons_append)
      have hextend : charRound o call (m.tz.extend t) c = (charRound o call m.tz c).extend t ∨
          (charRound o call m.tz c).Late := charRound_extend hchars
      rcases hextend with heq | hlate
      · exact .inl (stepCall_extend (hround'.trans heq) hround)
      · exact .inr (.inl (stepCall_late (hround ▸ hlate)))
    | nil =>
      have hround : nextTokenRound o call m.tz = endOfInputRound call.state m.tz := by
        rw [nextTokenRound, hq, hchars]
      rcases endOfInputRound_late hchars (h.call call hmode) h.tagged with hlate | ⟨-, huntagged⟩
      · exact .inr (.inl (stepCall_late (hround ▸ hlate)))
      · -- the newline is read with the character behind it
        obtain ⟨c, rest, rfl⟩ := List.exists_cons_of_ne_nil ht
        have hmore : (m.extend (c :: rest)).tz.chars = c :: rest := by
          change m.tz.chars ++ _ = _
          rw [hchars]
          rfl
        have hqueue : (m.extend (c :: rest)).tz.cross.queuedTokens = [] := hq
        have huntagged' : call.state.Untagged (m.extend (c :: rest)).tz.cross := huntagged
        have hround' : nextTokenRound o call (m.extend (c :: rest)).tz =
            .stop (.error (.missingHereTag ['\n'])) :=
          (nextTokenRound_char hqueue hmore).trans huntagged'.charRound
        refine .inr (.inr ⟨.missingHereTag ['\n'], ?_⟩)
        rw [stepCall, hround']

/-- **Step lemma.** A step is the same with more input, or the input is used up with it; or it
stops at a newline that stands where a tag was to be. -/
theorem step_extend (h : m.Heads) (ht : t ≠ []) :
    (m.extend t).step o = (m.step o).extend t ∨ (m.step o).Late ∨
      ∃ e, (m.extend t).step o = .stopped (.error e) := by
  cases hmode : m.mode with
  | call call =>
    have hstep : m.step o = m.stepCall o call := by rw [step, hmode]
    have hstep' : (m.extend t).step o = (m.extend t).stepCall o call := by
      rw [step, show (m.extend t).mode = .call call from hmode]
    rw [hstep, hstep']
    exact callStep_extend h ht hmode
  | loop =>
    have hstep : m.step o = m.stepLoop := by rw [step, hmode]
    have hstep' : (m.extend t).step o = (m.extend t).stepLoop := by
      rw [step, show (m.extend t).mode = .loop from hmode]
    rw [hstep, hstep']
    exact stepLoop_extend.imp id .inl
  | result r =>
    have hstep : m.step o = m.stepResult r := by rw [step, hmode]
    have hstep' : (m.extend t).step o = (m.extend t).stepResult r := by
      rw [step, show (m.extend t).mode = .result r from hmode]
    rw [hstep, hstep']
    exact (stepResult_extend r).imp id .inl

/-- **Step lemma.** With the input used up only incomplete errors are left. -/
theorem Spent.step (hs : m.Spent) (h : m.Heads) : (m.step o).Late := by
  cases hmode : m.mode with
  | call call =>
    rw [Machine.step, hmode]
    refine stepCall_late ?_
    cases hq : m.tz.cross.queuedTokens with
    | cons r queue =>
      rw [nextTokenRound, hq]
      exact hs.chars
    | nil =>
      rw [nextTokenRound, hq, hs.chars]
      refine (endOfInputRound_late hs.chars (h.call call hmode) h.tagged).resolve_right ?_
      rintro ⟨-, huntagged⟩
      rcases hs.call call hmode with hop | hnil
      · rw [huntagged.isOperator] at hop
        cases hop
      · rw [huntagged.token] at hnil
        cases hnil
  | loop =>
    rw [Machine.step, hmode]
    dsimp only
    unfold stepLoop
    split
    · exact ⟨hs.chars, by rintro _ ⟨⟩; exact .inl rfl⟩
    · rename_i l call outer houter
      have hmem := List.forall_mem_cons.1 (houter ▸ h.outer)
      split
      · exact afterTaken_late hs.chars (takeToken_inWord hmem.1 h.tagged)
      · exact ⟨hs.chars, by rintro _ ⟨⟩; exact .inl rfl⟩
  | result r =>
    rw [Machine.step, hmode]
    dsimp only
    unfold stepResult
    split
    · split
      · exact ⟨hs.chars, by rintro _ ⟨⟩⟩
      · split_ifs
        · trivial
        · exact ⟨hs.chars, by rintro _ ⟨⟩⟩
    · rename_i l call outer houter
      have hmem := List.forall_mem_cons.1 (houter ▸ h.outer)
      split_ifs
      · exact ⟨hs.chars, by rintro _ ⟨⟩⟩
      · exact afterTaken_late hs.chars (takeToken_inWord hmem.1 h.tagged)

/-! ## Runs -/

theorem Reaches.heads {s : List Char} (h : Reaches o s m) : m.Heads := by
  induction h with
  | refl => exact heads_init s
  | tail _ hnext ih =>
    have hstep := step_heads (o := o) ih
    rw [show Machine.step o _ = .next _ from hnext] at hstep
    exact hstep

theorem exists_last {s : List Char} {out : Outcome} (h : run o n (init s) = out)
    (hout : ∀ m, out ≠ .next m) : ∃ m, Reaches o s m ∧ m.step o = out := by
  suffices H : ∀ m, Reaches o s m → run o n m = out → ∃ m, Reaches o s m ∧ m.step o = out from
    H _ .refl h
  clear h
  induction n with
  | zero => exact fun m _ hrun => absurd hrun.symm (hout m)
  | succ n ih =>
    intro m hm hrun
    cases hs : m.step o with
    | next m' =>
      rw [run_of_next hs] at hrun
      exact ih m' (hm.tail hs) hrun
    | finished tokens =>
      rw [run_of_finished hs] at hrun
      exact ⟨m, hm, hs.trans hrun⟩
    | stopped e =>
      rw [run_of_stopped hs] at hrun
      exact ⟨m, hm, hs.trans hrun⟩

end Machine

def Tokenized (o : TokenizerOptions) (s : List Char) : Prop :=
  ∃ n tokens, uncachedTokenizeStr o s n = some (.ok tokens)

def FailsWith (o : TokenizerOptions) (s : List Char) (e : TokenizerError) : Prop :=
  ∃ n, uncachedTokenizeStr o s n = some (.error (.error e))

variable {o : TokenizerOptions} {s : List Char} {e : TokenizerError}

theorem failsWith_iff : FailsWith o s e ↔ ∃ m, Reaches o s m ∧ m.step o = .stopped (.error e) := by
  constructor
  · rintro ⟨n, hn⟩
    unfold uncachedTokenizeStr at hn
    split at hn
    · cases hn
    · cases hn
    · rename_i hrun
      cases hn
      exact exists_last hrun (stopped_ne_next _)
  · rintro ⟨m, hm, hstep⟩
    obtain ⟨n, hn⟩ := hm.run
    refine ⟨n + 1, ?_⟩
    rw [uncachedTokenizeStr, run_add o n 1 hn, run_of_stopped hstep]

/-- **Run lemma.** A run goes the same way with more input until the input is used up. -/
theorem Machine.Reaches.extend {m : Machine} (h : Reaches o s m) (ht : t ≠ []) :
    Reaches o (s ++ t) (m.extend t) ∨ m.Spent ∨ ∃ e, FailsWith o (s ++ t) e := by
  induction h with
  | refl => exact .inl .refl
  | @tail m m' hreach hnext ih =>
    have hnext : m.step o = .next m' := hnext
    have hheads : m.Heads := Reaches.heads hreach
    rcases ih with hext | hspent | hfails
    · rcases step_extend (o := o) hheads ht with heq | hlate | ⟨e, he⟩
      · rw [hnext] at heq
        exact .inl (hext.tail heq)
      · rw [hnext] at hlate
        exact .inr (.inl hlate)
      · exact .inr (.inr ⟨e, failsWith_iff.2 ⟨_, hext, he⟩⟩)
    · have hlate := hspent.step (o := o) hheads
      rw [hnext] at hlate
      exact .inr (.inl hlate)
    · exact .inr (.inr hfails)

theorem FailsWith.append (h : FailsWith o s e) (he : e.isIncomplete = false) (t : List Char) :
    ∃ e', FailsWith o (s ++ t) e' := by
  by_cases ht : t = []
  · rw [ht, List.append_nil]
    exact ⟨e, h⟩
  obtain ⟨m, hm, hstep⟩ := failsWith_iff.1 h
  have hlate : ¬ (m.step o).Late := fun hl => by
    rw [hstep] at hl
    exact absurd (he.symm.trans hl) nofun
  rcases hm.extend ht with hext | hspent | hfails
  · rcases step_extend (o := o) hm.heads ht with heq | hl | ⟨e', he'⟩
    · rw [hstep] at heq
      exact ⟨e, failsWith_iff.2 ⟨_, hext, heq⟩⟩
    · exact absurd hl hlate
    · exact ⟨e', failsWith_iff.2 ⟨_, hext, he'⟩⟩
  · exact absurd (hspent.step hm.heads) hlate
  · exact hfails

theorem Tokenized.not_failsWith (h : Tokenized o s) : ¬ FailsWith o s e := by
  rintro ⟨n', hn'⟩
  obtain ⟨n, tokens, hn⟩ := h
  unfold uncachedTokenizeStr at hn hn'
  split at hn
  · cases hn
  · rename_i hrun
    split at hn'
    · cases hn'
    · cases hn'
    · rename_i hrun'
      exact nomatch run_unique hrun hrun' (finished_ne_next _) (stopped_ne_next _)
  · cases hn

/-- What the tokenizer says of a text can be relied on for a continuation of it: an error that is
not for want of more input stays, and a text that a tokenized one begins with is tokenized or
incomplete. -/
structure Faithful (o : TokenizerOptions) (s t : List Char) : Prop where
  final : ∀ e, FailsWith o s e → e.isIncomplete = false → ∃ e', FailsWith o (s ++ t) e'
  reported : Tokenized o (s ++ t) → Tokenized o s ∨ ∃ e, FailsWith o s e ∧ e.isIncomplete = true

/-- **Incompleteness.** It is reported faithfully if and only if, for a text that a tokenized one
begins with, the tokenizer does not come to one of the states from which it panics or does not
end. -/
theorem faithful_iff (o : TokenizerOptions) (s t : List Char) :
    Faithful o s t ↔ (Tokenized o (s ++ t) → ∀ m, Reaches o s m → ¬ m.Fails) := by
  constructor
  · intro h ht m hm hfails
    obtain ⟨k, hk⟩ := hm.run
    have hends : ∀ n out, run o n (init s) = out → (∀ m, out ≠ .next m) → ∃ p,
        out = .stopped (.panic p) := by
      intro n out hrun hout
      have hlong := run_ended o n k hrun hout
      rw [Nat.add_comm, run_add o k n hk] at hlong
      rcases fails_run (o := o) hfails n with ⟨m', h⟩ | ⟨p, h⟩
      · exact absurd (hlong.symm.trans h) (hout m')
      · exact ⟨p, hlong.symm.trans h⟩
    rcases h.reported ht with ⟨n, tokens, hn⟩ | ⟨e, ⟨n, hn⟩, -⟩
    all_goals
      unfold uncachedTokenizeStr at hn
      split at hn <;> cases hn
    · rename_i hrun
      obtain ⟨p, hp⟩ := hends n _ hrun (finished_ne_next _)
      cases hp
    · rename_i hrun
      obtain ⟨p, hp⟩ := hends n _ hrun (stopped_ne_next _)
      cases hp
  · intro hok
    refine ⟨fun e h he => h.append he t, fun ht => ?_⟩
    obtain ⟨n, ⟨tokens, h⟩ | ⟨stop, h, hs⟩⟩ := exists_end (hok ht) (m := init s) .refl
    · refine .inl ⟨n, tokens, ?_⟩
      rw [uncachedTokenizeStr, h]
    · cases stop with
      | panic p => exact absurd rfl (hs p)
      | error e =>
        have hfails : FailsWith o s e := ⟨n, by rw [uncachedTokenizeStr, h]⟩
        refine .inr ⟨e, hfails, ?_⟩
        by_contra he
        obtain ⟨e', he'⟩ := hfails.append (Bool.eq_false_iff.2 he) t
        exact ht.not_failsWith he'

/-! ## A text that fails and its continuation -/

theorem Faithful.tokenizes {s t : List Char} (h : Faithful o s t) (ht : Tokenized o (s ++ t)) :
    Tokenizes o s := by
  rcases h.reported ht with ⟨n, tokens, hn⟩ | ⟨e, ⟨n, hn⟩, -⟩
  · exact ⟨n, _, hn, fun p hp => by cases hp⟩
  · exact ⟨n, _, hn, fun p hp => by cases hp⟩

theorem tokenized_of_isOk
    (h : ((uncachedTokenizeStr o s n).any fun r => r.toOption.isSome) = true) :
    Tokenized o s := by
  cases hr : uncachedTokenizeStr o s n with
  | none =>
    rw [hr] at h
    cases h
  | some r =>
    cases r with
    | error stop =>
      rw [hr] at h
      cases h
    | ok tokens => exact ⟨n, tokens, hr⟩

/-- A here-document of a substitution in a substitution, whose last line is not ended yet. -/
theorem hereDoc_not_faithful : ¬ Faithful defaultOptions
    ['$', '(', '$', '(', 'c', 'a', 't', ' ', '<', '<', 'E', ')', '\n', 'E'] ['\n', ')'] := by
  intro h
  have htokenized : Tokenized defaultOptions (['$', '(', '$', '(', 'c', 'a', 't', ' ', '<', '<',
      'E', ')', '\n', 'E'] ++ ['\n', ')']) := tokenized_of_isOk (n := 200) (by decide +kernel)
  exact not_tokenizes_of_panic (n := 60) (p := .nextChar) (by decide +kernel)
    (h.tokenizes htokenized)

end Seahaven.Parser
