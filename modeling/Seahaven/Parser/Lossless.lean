import Seahaven.Parser.Loss

/-!
# The text of words

Where no here-document, no comment and no line continuation is read, the tokens keep the text they
were read from, unless a step of the tokenizer loses some of it.

1. `Preserves` says what it is to keep the text, `Machine.Lossy` which steps lose some.
2. The text of the token under way is followed against the input through every step (`Tracks`).
3. `preserves_iff`: the text is kept if and only if no step of the run is lossy.
-/

namespace Seahaven.Parser

open TokenParseState

/-! ## What is kept -/

def SourceSpan.slice (input : List Char) (l : SourceSpan) : List Char :=
  (input.drop l.start.index).take (l.stop.index - l.start.index)

def Token.Verbatim (input : List Char) : Token → Prop
  | .word s l => s = l.slice input
  | .operator _ _ => True

def Separated : List Token → List Char → Prop
  | [], s => ∀ c ∈ s, isBlank c = true
  | t :: tokens, s => ∃ gap rest, s = gap ++ (t.toStr ++ rest) ∧ (∀ c ∈ gap, isBlank c = true) ∧
      Separated tokens rest

def Preserves (input : List Char) (tokens : List Token) : Prop :=
  (∀ t ∈ tokens, t.Verbatim input) ∧ Separated tokens input

variable {s : List Char}

theorem Separated.blank {tokens : List Token} {c : Char}
    (h : Separated tokens s) (hc : isBlank c = true) : Separated tokens (s ++ [c]) := by
  induction tokens generalizing s with
  | nil =>
    intro d hd
    rcases List.mem_append.1 hd with hd | hd
    · exact h d hd
    · rwa [List.mem_singleton.1 hd]
  | cons t tokens ih =>
    obtain ⟨gap, rest, rfl, hgap, hrest⟩ := h
    exact ⟨gap, rest ++ [c], by simp, hgap, ih hrest⟩

theorem Separated.token {tokens : List Token} (h : Separated tokens s)
    (t : Token) : Separated (tokens ++ [t]) (s ++ t.toStr) := by
  induction tokens generalizing s with
  | nil => exact ⟨s, [], by simp, h, nofun⟩
  | cons t' tokens ih =>
    obtain ⟨gap, rest, rfl, hgap, hrest⟩ := h
    exact ⟨gap, rest ++ t.toStr, by simp, hgap, ih hrest⟩

/-! ## Plain and lossy steps -/

namespace Machine

def passesOver (m : Machine) : Bool :=
  match m.mode with
  | .call call => call.atComment m.tz || call.atContinuation m.tz
  | _ => false

def Plain (m : Machine) : Prop := m.tz.cross.hereState = .none ∧ m.passesOver = false

instance (m : Machine) : Decidable m.Plain := inferInstanceAs (Decidable (_ ∧ _))

/-- The next step loses text: one of a nested construct at a blank, or any in `$'…'`. -/
def Lossy (m : Machine) : Prop :=
  match m.mode with
  | .call call =>
    match call.loss m.tz with
    | .none => False
    | .dropped => True
    | .skipped | .respaced => m.outer ≠ []
  | _ => False

end Machine

/-! ## The text of the token under way -/

/-- What is shown of the token under way, and what was read for it since `before`, which is what
was read for the tokens. It is clean if all is as it was read. -/
structure Follows (input : List Char) (clean : Prop) (tokens : List Token)
    (before source shown : List Char) (tz : Tokenizer) : Prop where
  read : input = before ++ (source ++ tz.chars)
  index : tz.cross.cursor.index = before.length + source.length
  length : shown.length ≤ source.length
  began : shown = [] → source = []
  kept : clean ↔ (∀ t ∈ tokens, t.Verbatim input) ∧ shown = source
  separated : clean → Separated tokens before

/-- The outermost token under way starts behind what was read for the tokens. -/
structure Starts (st : TokenParseState) (before source shown : List Char) : Prop where
  start : st.startPosition.index = before.length
  operator : st.tokenIsOperator = true → shown = source

section

variable {input : List Char} {clean : Prop} {tokens : List Token}
  {before source shown : List Char} {tz tz' : Tokenizer}

theorem append_eq_append_iff_of_le {x y : List Char} (hlen : shown.length ≤ source.length)
    (hxy : x.length ≤ y.length) : shown ++ x = source ++ y ↔ shown = source ∧ x = y := by
  constructor
  · intro h
    have htotal := congrArg List.length h
    rw [List.length_append, List.length_append] at htotal
    exact List.append_inj h (by omega)
  · rintro ⟨rfl, rfl⟩
    rfl

theorem Follows.append {x y : List Char} {clean' : Prop}
    (h : Follows input clean tokens before source shown tz) (hreads : tz.Reads y tz')
    (hlen : x.length ≤ y.length) (hbegan : x = [] → y = [] ∨ shown ≠ [])
    (hclean : clean' ↔ clean ∧ x = y) :
    Follows input clean' tokens before (source ++ y) (shown ++ x) tz' where
  read := by rw [h.read, hreads.chars, List.append_assoc]
  index := by rw [hreads.index, h.index, List.length_append, Nat.add_assoc]
  length := by
    rw [List.length_append, List.length_append]
    exact Nat.add_le_add h.length hlen
  began := by
    intro hnil
    obtain ⟨hshown, hx⟩ := List.append_eq_nil_iff.1 hnil
    rcases hbegan hx with hy | hne
    · rw [h.began hshown, hy]
      rfl
    · exact absurd hshown hne
  kept := by rw [hclean, h.kept, append_eq_append_iff_of_le h.length hlen, and_assoc]
  separated := fun hc => h.separated (hclean.1 hc).1

theorem Follows.blank {c : Char} (h : Follows input clean tokens before source [] tz)
    (hreads : tz.Reads [c] tz') (hc : isBlank c = true) :
    Follows input clean tokens (before ++ [c]) [] [] tz' := by
  obtain rfl := h.began rfl
  exact
    { read := by rw [h.read, hreads.chars]; simp
      index := by rw [hreads.index, h.index, List.length_append]; rfl
      length := Nat.le_refl _
      began := fun _ => rfl
      kept := h.kept
      separated := fun hcl => (h.separated hcl).blank hc }

theorem Follows.slice (h : Follows input clean tokens before source shown tz)
    {l : SourceSpan} (hstart : l.start.index = before.length)
    (hstop : l.stop.index = tz.cross.cursor.index) : l.slice input = source := by
  unfold SourceSpan.slice
  rw [hstop, h.index, hstart, h.read, List.drop_left, Nat.add_sub_cancel_left, List.take_left]

theorem Follows.token (h : Follows input clean tokens before source shown tz)
    {st : TokenParseState} (hst : Starts st before source shown) (hshown : st.tokenSoFar = shown) :
    Follows input clean (tokens ++ [st.pop tz.cross.cursor]) (before ++ source) [] [] tz := by
  have hverbatim : (st.pop tz.cross.cursor).Verbatim input ↔ shown = source := by
    unfold pop
    by_cases hop : st.tokenIsOperator = true
    · rw [if_pos hop]
      exact iff_of_true trivial (hst.operator hop)
    · rw [if_neg hop]
      change st.tokenSoFar = SourceSpan.slice input _ ↔ _
      rw [h.slice hst.start rfl, hshown]
  have hstr : (st.pop tz.cross.cursor).toStr = shown := by
    unfold pop
    split_ifs <;> exact hshown
  exact
    { read := by rw [h.read, List.append_assoc]; rfl
      index := by rw [h.index, List.length_append]; rfl
      length := Nat.le_refl _
      began := fun _ => rfl
      kept := by
        rw [h.kept, List.forall_mem_append, List.forall_mem_singleton, hverbatim]
        simp
      separated := by
        intro hc
        have heq : shown = source := (h.kept.1 hc).2
        have := (h.separated hc).token (st.pop tz.cross.cursor)
        rwa [hstr, heq] at this }

end

/-! ## Through every step -/

variable {o : TokenizerOptions}

namespace Machine

def outerText : List (ConstructLoop × Call) → List Char
  | [] => []
  | (_, call) :: outer => outerText outer ++ call.state.tokenSoFar

def base (st : TokenParseState) : List (ConstructLoop × Call) → TokenParseState
  | [] => st
  | (_, call) :: outer => base call.state outer

/-- The text under way. -/
def underWay (m : Machine) : List Char :=
  match m.mode, m.outer with
  | .call call, outer => outerText outer ++ call.state.tokenSoFar
  | .loop, outer => outerText outer
  | .result _, [] => []
  | .result r, outer => outerText outer ++ r.shown

def first (m : Machine) : Option TokenParseState :=
  match m.mode, m.outer with
  | .call call, outer => some (base call.state outer)
  | _, [] => none
  | _, (_, call) :: outer => some (base call.state outer)

def complete (m : Machine) : List Token :=
  match m.mode, m.outer with
  | .result r, [] => m.tokens ++ r.token.toList
  | _, _ => m.tokens

/-- Nothing waits, and what has been entered has started. -/
structure Simple (m : Machine) : Prop where
  queue : m.tz.cross.queuedTokens = []
  outer : ∀ e ∈ m.outer, e.1.pending = [] ∧ e.2.state.startedToken = true ∧
    e.2.state.tokenIsOperator = false
  call : ∀ call, m.mode = .call call → call.state.Begun
  result : ∀ r, m.mode = .result r →
    isHereDocument r = false ∧ (r.reason = .endOfInput → m.tz.chars = [])

def Tracks (input : List Char) (clean : Prop) (m : Machine) : Prop :=
  ∃ before source, Follows input clean m.complete before source m.underWay m.tz ∧
    ∀ st, m.first = some st → Starts st before source m.underWay

theorem simple_init (input : List Char) : (init input).Simple where
  queue := rfl
  outer := fun _ he => absurd he List.not_mem_nil
  call := by rintro _ ⟨⟩
  result := by rintro _ ⟨⟩

theorem tracks_init (input : List Char) : Tracks input True (init input) := by
  refine ⟨[], [], ⟨rfl, rfl, Nat.le_refl _, fun _ => rfl, ?_, fun _ => nofun⟩, nofun⟩
  exact iff_of_true trivial ⟨nofun, rfl⟩

variable {input : List Char} {clean : Prop} {m m' : Machine}

theorem stepLoop_tracks (hs : m.Simple) (ht : m.Tracks input clean) (hmode : m.mode = .loop)
    (hnext : m.stepLoop = .next m') : m'.Simple ∧ m'.Tracks input clean := by
  obtain ⟨tz, tokens, outer, mode⟩ := m
  obtain rfl : mode = .loop := hmode
  obtain ⟨before, source, hf, hst⟩ := ht
  cases outer with
  | nil =>
    cases hnext
    refine ⟨⟨hs.queue, hs.outer, ?_, ?_⟩, before, source, hf, ?_⟩
    · rintro _ ⟨⟩ h
      cases h
    · rintro _ ⟨⟩
    · rintro st ⟨⟩
      have hindex := hf.index
      rw [hf.began rfl] at hindex
      exact ⟨hindex, nofun⟩
  | cons e outer =>
    obtain ⟨l, call⟩ := e
    have hpending : l.pending = [] := (hs.outer _ (List.mem_cons_self ..)).1
    unfold stepLoop at hnext
    dsimp only at hnext
    rw [hpending] at hnext
    split at hnext
    next h => cases h
    next =>
      cases hnext
      refine ⟨⟨hs.queue, hs.outer, ?_, ?_⟩, before, source, ?_, ?_⟩
      · rintro _ ⟨⟩ h
        cases h
      · rintro _ ⟨⟩
      · change Follows input clean tokens before source (outerText _ ++ []) tz
        rw [List.append_nil]
        exact hf
      · rintro st ⟨⟩
        change Starts _ before source (outerText _ ++ [])
        rw [List.append_nil]
        exact hst _ rfl

theorem starts_base {before source shown : List Char} {st st' : TokenParseState}
    {outer : List (ConstructLoop × Call)} (h : Starts (base st outer) before source shown)
    (hstart : st'.startPosition = st.startPosition)
    (hop : (base st' outer).tokenIsOperator = true → shown = source) :
    Starts (base st' outer) before (source ++ s) (shown ++ s) := by
  refine ⟨?_, fun ht => by rw [hop ht]⟩
  cases outer with
  | nil => exact (congrArg SourcePosition.index hstart).trans h.start
  | cons e outer => exact h.start

variable {r : TokenizeResult}

theorem stepResult_tracks (hs : m.Simple) (ht : m.Tracks input clean)
    (hmode : m.mode = .result r) (hnext : m.stepResult r = .next m') :
    m'.Simple ∧ m'.Tracks input clean := by
  obtain ⟨tz, tokens, outer, mode⟩ := m
  obtain rfl : mode = .result r := hmode
  obtain ⟨before, source, hf, hst⟩ := ht
  cases outer with
  | nil =>
    unfold stepResult at hnext
    dsimp only at hnext
    cases htoken : r.token with
    | some t =>
      rw [htoken] at hnext
      cases hnext
      refine ⟨⟨hs.queue, hs.outer, ?_, ?_⟩, before, source, ?_, ?_⟩
      · rintro _ ⟨⟩
      · rintro _ ⟨⟩
      · have hcomplete : tokens ++ r.token.toList = tokens ++ [t] := by rw [htoken]; rfl
        exact hcomplete ▸ hf
      · rintro _ ⟨⟩
    | none =>
      rw [htoken] at hnext
      dsimp only at hnext
      split_ifs at hnext with hend
      cases hnext
      refine ⟨⟨hs.queue, hs.outer, ?_, ?_⟩, before, source, ?_, ?_⟩
      · rintro _ ⟨⟩
      · rintro _ ⟨⟩
      · have hcomplete : tokens ++ r.token.toList = tokens := by
          rw [htoken]
          exact List.append_nil tokens
        exact hcomplete ▸ hf
      · rintro _ ⟨⟩
  | cons e outer =>
    obtain ⟨l, call⟩ := e
    obtain ⟨hpending, hstarted, hop⟩ := hs.outer _ (List.mem_cons_self ..)
    have hreads : TakenReads r call.state tz _ := takeToken_reads hpending (hs.result r rfl).1
    have houter : ∀ e ∈ outer, e.1.pending = [] ∧ e.2.state.startedToken = true ∧
        e.2.state.tokenIsOperator = false := fun e he => hs.outer e (List.mem_cons_of_mem _ he)
    have hbase : (base call.state outer).tokenIsOperator = true →
        outerText outer ++ call.state.tokenSoFar ++ r.shown = source := (hst _ rfl).operator
    have hfollows : ∀ {s : List Char} {tz' : Tokenizer}, tz.Reads s tz' →
        Follows input clean tokens before (source ++ s)
          (outerText outer ++ (call.state.tokenSoFar ++ (r.shown ++ s))) tz' := by
      intro s tz' hr
      have := hf.append hr (Nat.le_refl _) .inl (and_iff_left rfl).symm
      rwa [show outerText outer ++ (call.state.tokenSoFar ++ (r.shown ++ s)) =
        outerText outer ++ call.state.tokenSoFar ++ r.shown ++ s by simp]
    have hstarts : ∀ s : List Char,
        Starts (base (call.state.append (r.shown ++ s)) outer) before (source ++ s)
          (outerText outer ++ (call.state.tokenSoFar ++ (r.shown ++ s))) := by
      intro s
      rw [show outerText outer ++ (call.state.tokenSoFar ++ (r.shown ++ s)) =
        outerText outer ++ call.state.tokenSoFar ++ r.shown ++ s by simp]
      refine starts_base (hst _ rfl) rfl fun h => hbase ?_
      cases outer with
      | nil => exact h
      | cons e outer => exact h
    unfold stepResult at hnext
    dsimp only at hnext
    rw [if_neg (by simp [(hs.result r rfl).1])] at hnext
    cases htaken : takeToken l r call.state tz with
    | more l' st' tz' =>
      rw [htaken] at hnext hreads
      cases hnext
      obtain ⟨hpending', s, hr, rfl⟩ := hreads
      refine ⟨⟨hr.queuedTokens.trans hs.queue, ?_, ?_, ?_⟩, before, source ++ s, hfollows hr, ?_⟩
      · rintro e (_ | ⟨_, he⟩)
        · exact ⟨hpending', startedToken_append_of hstarted _, hop⟩
        · exact houter e he
      · rintro _ ⟨⟩
      · rintro _ ⟨⟩
      · rintro st ⟨⟩
        exact hstarts s
    | ended st' tz' =>
      rw [htaken] at hnext hreads
      cases hnext
      obtain ⟨s, hr, rfl⟩ := hreads
      refine ⟨⟨hr.queuedTokens.trans hs.queue, houter, ?_, ?_⟩, before, source ++ s,
        hfollows hr, ?_⟩
      · rintro _ ⟨⟩
        exact begun_of_started (startedToken_append_of hstarted _)
      · rintro _ ⟨⟩
      · rintro st ⟨⟩
        exact hstarts s
    | stop s =>
      rw [htaken] at hnext
      cases hnext

theorem nextTokenRound_reads {call : Call} (hs : m.Simple)
    (hplain : m.Plain) (hmode : m.mode = .call call) :
    RoundReads call m.tz (nextTokenRound o call m.tz) := by
  obtain ⟨hhere, hat⟩ := hplain
  unfold passesOver at hat
  rw [hmode] at hat
  have hat := Bool.or_eq_false_iff.1 hat
  unfold nextTokenRound
  rw [hs.queue]
  dsimp only
  cases hchars : m.tz.chars with
  | nil => exact endOfInputRound_reads hhere hchars
  | cons c rest => exact charRound_reads hhere hchars (hs.call call hmode) hat.1 hat.2

theorem base_operator {st : TokenParseState} {outer : List (ConstructLoop × Call)}
    (hst : outer = [] → st.tokenIsOperator = false)
    (houter : ∀ e ∈ outer, e.2.state.tokenIsOperator = false) :
    (base st outer).tokenIsOperator = false := by
  induction outer generalizing st with
  | nil => exact hst rfl
  | cons e outer ih =>
    obtain ⟨l, call⟩ := e
    exact ih (fun _ => houter _ (List.mem_cons_self ..))
      fun e he => houter e (List.mem_cons_of_mem _ he)

theorem outerText_ne_nil {outer : List (ConstructLoop × Call)} (hne : outer ≠ [])
    (houter : ∀ e ∈ outer, e.2.state.startedToken = true) : outerText outer ≠ [] := by
  cases outer with
  | nil => exact absurd rfl hne
  | cons e outer =>
    obtain ⟨l, call⟩ := e
    exact List.append_ne_nil_of_right_ne_nil _
      (startedToken_iff.1 (houter _ (List.mem_cons_self ..)))

section

variable {before source : List Char} {tz tz' : Tokenizer} {tokens : List Token} {call : Call}
  {outer : List (ConstructLoop × Call)} {st : TokenParseState}

theorem follows_text
    (hf : Follows input clean tokens before source (outerText outer ++ call.state.tokenSoFar) tz)
    (hst : Starts (base call.state outer) before source
      (outerText outer ++ call.state.tokenSoFar))
    (hreads : tz.Reads s tz') (hext : call.state.Extends s st) :
    Follows input clean tokens before (source ++ s) (outerText outer ++ st.tokenSoFar) tz' ∧
      Starts (base st outer) before (source ++ s) (outerText outer ++ st.tokenSoFar) := by
  rw [hext.text, ← List.append_assoc]
  refine ⟨hf.append hreads (Nat.le_refl _) .inl (and_iff_left rfl).symm,
    starts_base hst hext.start fun hop => ?_⟩
  cases outer with
  | nil =>
    rcases hext.operator hop with hcall | hnil
    · exact hst.operator hcall
    · rw [hf.began (by rw [hnil]; rfl), hnil]
      rfl
  | cons e outer => exact hst.operator hop

theorem follows_lost (st : TokenParseState)
    (hf : Follows input clean tokens before source (outerText outer ++ call.state.tokenSoFar) tz)
    (hst : Starts (base call.state outer) before source
      (outerText outer ++ call.state.tokenSoFar))
    (hreads : tz.Reads s tz') (hs : s ≠ [])
    (hne : outerText outer ++ call.state.tokenSoFar ≠ [])
    (hop : (base st outer).tokenIsOperator = false)
    (hstart : outer = [] → st.startPosition = call.state.startPosition)
    (htext : st.tokenSoFar = call.state.tokenSoFar) :
    Follows input False tokens before (source ++ s) (outerText outer ++ st.tokenSoFar) tz' ∧
      Starts (base st outer) before (source ++ s) (outerText outer ++ st.tokenSoFar) := by
  rw [htext]
  refine ⟨?_, ?_, fun h => absurd (hop.symm.trans h) nofun⟩
  · have := hf.append (x := []) hreads (Nat.zero_le _) (fun _ => .inr hne)
      (iff_of_false id fun h => hs h.2.symm)
    rwa [List.append_nil] at this
  · cases outer with
    | nil => exact (congrArg SourcePosition.index (hstart rfl)).trans hst.start
    | cons e outer => exact hst.start

theorem text_of_result {p : SourcePosition}
    (h : r.token = call.state.result p) : r.text = call.state.tokenSoFar := by
  unfold TokenizeResult.text
  rw [h]
  unfold TokenParseState.result
  by_cases hs : call.state.startedToken = true
  · rw [if_pos hs]
    change (call.state.pop p).toStr = _
    unfold pop
    split_ifs <;> rfl
  · rw [if_neg hs]
    by_contra hne
    exact hs (startedToken_iff.2 (Ne.symm hne))

theorem follows_complete (hf : Follows input clean tokens before source call.state.tokenSoFar tz)
    (hst : Starts call.state before source call.state.tokenSoFar)
    (hdone : DoneReads call tz r tz') :
    ∃ before', Follows input clean (tokens ++ r.token.toList) before' [] [] tz' := by
  have htoken := hdone.token
  unfold TokenParseState.result at htoken
  by_cases hs : call.state.startedToken = true
  · rw [if_pos hs] at htoken
    have hpop := hf.token hst rfl
    rw [htoken]
    rcases hdone.reads with ⟨-, hreads, -⟩ | ⟨c, -, hreads, hc, -⟩
    · exact ⟨_, hpop.append hreads (Nat.le_refl _) .inl (and_iff_left rfl).symm⟩
    · exact ⟨_, hpop.blank hreads hc⟩
  · rw [if_neg hs] at htoken
    have hnil : call.state.tokenSoFar = [] := by
      by_contra hne
      exact hs (startedToken_iff.2 hne)
    rw [htoken, Option.toList_none, List.append_nil]
    rw [hnil] at hf
    obtain rfl := hf.began rfl
    rcases hdone.reads with ⟨-, hreads, -⟩ | ⟨c, -, hreads, hc, hstarted, -⟩
    · exact ⟨_, hf.append hreads (Nat.le_refl _) .inl (and_iff_left rfl).symm⟩
    · exact absurd hstarted hs

theorem follows_result
    (hf : Follows input clean tokens before source (outerText outer ++ call.state.tokenSoFar) tz)
    (hdone : DoneReads call tz r tz') :
    ∃ source', Follows input (clean ∧ call.loss tz = .none) tokens before source'
      (outerText outer ++ r.shown) tz' := by
  unfold TokenizeResult.shown
  rw [text_of_result hdone.token, ← List.append_assoc]
  rcases hdone.reads with ⟨hr, hreads, hloss⟩ | ⟨c, hr, hreads, hc, -, hloss⟩
  · rw [if_neg hr]
    exact ⟨_, hf.append hreads (Nat.le_refl _) .inl (by simp [hloss])⟩
  · rw [if_pos hr]
    refine ⟨_, hf.append hreads (Nat.le_refl _) nofun (and_congr_right fun _ => ?_)⟩
    rw [hloss]
    split_ifs with h
    · simp [h]
    · simp [Ne.symm h]

end

theorem stepCall_tracks {call : Call} (hs : m.Simple)
    (ht : m.Tracks input clean) (hplain : m.Plain) (hmode : m.mode = .call call)
    (hnext : m.stepCall o call = .next m') (hhere : m'.tz.cross.hereState = .none) :
    m'.Simple ∧ m'.Tracks input (clean ∧ ¬ m.Lossy) := by
  have hround : RoundReads call m.tz (nextTokenRound o call m.tz) :=
    nextTokenRound_reads hs hplain hmode
  obtain ⟨tz, tokens, outer, mode⟩ := m
  obtain rfl : mode = .call call := hmode
  obtain ⟨before, source, hf, hst⟩ := ht
  change Follows input clean tokens before source (outerText outer ++ call.state.tokenSoFar) tz
    at hf
  have hst : Starts (base call.state outer) before source
      (outerText outer ++ call.state.tokenSoFar) := hst _ rfl
  have hclean : call.loss tz = .none →
      (clean ∧ ¬ Lossy ⟨tz, tokens, outer, .call call⟩) = clean := by
    intro h
    refine propext (and_iff_left ?_)
    unfold Lossy
    dsimp only
    rw [h]
    exact id
  have hlossy : Lossy ⟨tz, tokens, outer, .call call⟩ →
      (clean ∧ ¬ Lossy ⟨tz, tokens, outer, .call call⟩) = False :=
    fun h => eq_false fun hc => hc.2 h
  have houter : ∀ e ∈ outer, e.2.state.tokenIsOperator = false := fun e he => (hs.outer e he).2.2
  have houtertext : outer ≠ [] → outerText outer ≠ [] := fun hne =>
    outerText_ne_nil hne fun e he => (hs.outer e he).2.1
  unfold stepCall at hnext
  dsimp only at hnext hround
  cases hr : nextTokenRound o call tz with
  | more st tz' =>
    rw [hr] at hnext hround
    cases hnext
    rcases hround hhere with ⟨s, hreads, hext, hloss⟩ | ⟨c, hreads, hc, rfl, hnil, hloss⟩ |
      ⟨c, d, hreads, rfl, hstarted, hop, hloss⟩
    · rw [hclean hloss]
      obtain ⟨hf', hst'⟩ := follows_text hf hst hreads hext
      refine ⟨⟨hreads.queuedTokens.trans hs.queue, hs.outer, ?_, ?_⟩, before, source ++ s,
        hf', ?_⟩
      · rintro _ ⟨⟩
        exact hext.begun
      · rintro _ ⟨⟩
      · rintro _ ⟨⟩
        exact hst'
    · by_cases hout : outer = []
      · subst hout
        have hnot : ¬ Lossy ⟨tz, tokens, [], .call call⟩ := by
          unfold Lossy
          dsimp only
          rw [hloss]
          exact fun h => h rfl
        rw [show (clean ∧ ¬ Lossy ⟨tz, tokens, [], .call call⟩) = clean from
          propext (and_iff_left hnot)]
        change Follows input clean tokens before source call.state.tokenSoFar tz at hf
        rw [hnil] at hf
        have hf' := hf.blank hreads hc
        have hnil' : underWay ⟨tz', tokens, [], .call { call with state := call.state.skip }⟩ = [] :=
          hnil
        refine ⟨⟨hreads.queuedTokens.trans hs.queue, hs.outer, ?_, ?_⟩, before ++ [c], [], ?_, ?_⟩
        · rintro _ ⟨⟩
          exact hs.call call rfl
        · rintro _ ⟨⟩
        · rw [hnil']
          exact hf'
        · rintro _ ⟨⟩
          refine ⟨?_, fun _ => hnil⟩
          rw [List.length_append]
          exact congrArg (· + 1) hst.start
      · have hlost : Lossy ⟨tz, tokens, outer, .call call⟩ := by
          unfold Lossy
          dsimp only
          rw [hloss]
          exact hout
        rw [hlossy hlost]
        obtain ⟨hf', hst'⟩ := follows_lost call.state.skip hf hst hreads
          (List.cons_ne_nil _ _) (List.append_ne_nil_of_left_ne_nil (houtertext hout) _)
          (base_operator (fun h => absurd h hout) houter) (fun h => absurd h hout) rfl
        refine ⟨⟨hreads.queuedTokens.trans hs.queue, hs.outer, ?_, ?_⟩, before, source ++ [c],
          hf', ?_⟩
        · rintro _ ⟨⟩
          exact hs.call call rfl
        · rintro _ ⟨⟩
        · rintro _ ⟨⟩
          exact hst'
    · have hlost : Lossy ⟨tz, tokens, outer, .call call⟩ := by
        unfold Lossy
        dsimp only
        rw [hloss]
        trivial
      rw [hlossy hlost]
      obtain ⟨hf', hst'⟩ := follows_lost call.state hf hst hreads (List.cons_ne_nil _ _)
        (List.append_ne_nil_of_right_ne_nil _ (startedToken_iff.1 hstarted))
        (base_operator (fun _ => hop) houter) (fun _ => rfl) rfl
      refine ⟨⟨hreads.queuedTokens.trans hs.queue, hs.outer, ?_, ?_⟩, before, source ++ [c, d],
        hf', ?_⟩
      · rintro _ ⟨⟩
        exact hs.call call rfl
      · rintro _ ⟨⟩
      · rintro _ ⟨⟩
        exact hst'
  | enter k st tz' =>
    rw [hr] at hnext hround
    cases hnext
    obtain ⟨-, hop, hstarted, s, hreads, hext, hloss⟩ := hround
    rw [hclean hloss]
    obtain ⟨hf', hst'⟩ := follows_text hf hst hreads hext
    refine ⟨⟨hreads.queuedTokens.trans hs.queue, ?_, ?_, ?_⟩, before, source ++ s, hf', ?_⟩
    · rintro e (_ | ⟨_, he⟩)
      · exact ⟨rfl, hstarted, hop⟩
      · exact hs.outer e he
    · rintro _ ⟨⟩
    · rintro _ ⟨⟩
    · rintro _ ⟨⟩
      exact hst'
  | done r tz' =>
    rw [hr] at hnext hround
    cases hnext
    have hdone : DoneReads call tz r tz' := hround
    have hqueue : tz'.cross.queuedTokens = tz.cross.queuedTokens := by
      rcases hdone.reads with ⟨-, hreads, -⟩ | ⟨c, -, hreads, -⟩
      · exact hreads.queuedTokens
      · exact hreads.queuedTokens
    have hsimple : Simple ⟨tz', tokens, outer, .result r⟩ := by
      refine ⟨hqueue.trans hs.queue, hs.outer, ?_, ?_⟩
      · rintro _ ⟨⟩
      · rintro _ ⟨⟩
        exact ⟨hdone.notHere, hdone.ended⟩
    cases outer with
    | nil =>
      have hnot : ¬ Lossy ⟨tz, tokens, [], .call call⟩ := by
        unfold Lossy
        dsimp only
        rcases hdone.reads with ⟨-, -, hloss⟩ | ⟨c, -, -, -, -, hloss⟩
        · rw [hloss]
          exact id
        · rw [hloss]
          split_ifs
          · exact id
          · exact fun h => h rfl
      rw [show (clean ∧ ¬ Lossy ⟨tz, tokens, [], .call call⟩) = clean from
        propext (and_iff_left hnot)]
      obtain ⟨before', hf'⟩ := follows_complete hf hst hdone
      exact ⟨hsimple, before', [], hf', nofun⟩
    | cons e outer =>
      have hiff : (clean ∧ ¬ Lossy ⟨tz, tokens, e :: outer, .call call⟩) =
          (clean ∧ call.loss tz = .none) := by
        refine propext (and_congr_right fun _ => ?_)
        unfold Lossy
        dsimp only
        cases call.loss tz <;> simp
      rw [hiff]
      obtain ⟨source', hf'⟩ := follows_result hf hdone
      refine ⟨hsimple, before, source', hf', ?_⟩
      rintro _ ⟨⟩
      refine ⟨hst.start, fun h => ?_⟩
      have hop : (base call.state (e :: outer)).tokenIsOperator = false :=
        base_operator nofun houter
      exact absurd (hop.symm.trans h) nofun
  | stop s =>
    rw [hr] at hnext
    cases hnext

/-- **One step.** What is shown stays what was read, unless the step is lossy. -/
theorem step_tracks (hs : m.Simple) (ht : m.Tracks input clean)
    (hplain : m.Plain) (hplain' : m'.Plain) (hnext : Next o m m') :
    m'.Simple ∧ m'.Tracks input (clean ∧ ¬ m.Lossy) := by
  have hquiet : (∀ call, m.mode ≠ .call call) → (clean ∧ ¬ m.Lossy) = clean := by
    intro hne
    refine propext (and_iff_left ?_)
    unfold Lossy
    split
    next call h => exact absurd h (hne call)
    next => exact id
  unfold Next step at hnext
  cases hmode : m.mode with
  | call call =>
    rw [hmode] at hnext
    exact stepCall_tracks hs ht hplain hmode hnext hplain'.1
  | loop =>
    rw [hmode] at hnext
    rw [hquiet fun call h => by rw [hmode] at h; cases h]
    exact stepLoop_tracks hs ht hmode hnext
  | result r =>
    rw [hmode] at hnext
    rw [hquiet fun call h => by rw [hmode] at h; cases h]
    exact stepResult_tracks hs ht hmode hnext

/-- **A run from a machine.** What is shown is what was read if no step was lossy. -/
theorem run_tracks {start : Machine}
    (hplain : ∀ m, Relation.ReflTransGen (Next o) start m → m.Plain)
    (hs : start.Simple) (ht : start.Tracks input clean)
    (hm : Relation.ReflTransGen (Next o) start m) :
    m.Simple ∧ ∃ clean', m.Tracks input clean' ∧ (clean' → clean) ∧
      ((∀ m, Relation.ReflTransGen (Next o) start m → ¬ m.Lossy) → clean → clean') := by
  induction hm with
  | refl => exact ⟨hs, clean, ht, id, fun _ => id⟩
  | tail hm hnext ih =>
    obtain ⟨hsimple, clean', htracks, hto, hof⟩ := ih
    obtain ⟨hsimple', htracks'⟩ := step_tracks hsimple htracks (hplain _ hm)
      (hplain _ (hm.tail hnext)) hnext
    exact ⟨hsimple', _, htracks', fun h => hto h.1, fun hall hc => ⟨hof hall hc, hall _ hm⟩⟩

theorem finished_iff {tokens : List Token} :
    m.step o = .finished tokens ↔ ∃ r, m.mode = .result r ∧ m.outer = [] ∧ r.token = none ∧
      r.reason = .endOfInput ∧ tokens = m.tokens := by
  obtain ⟨tz, tokens', outer, mode⟩ := m
  have hafter : ∀ {call outer taken} {m : Machine}, m.afterTaken call outer taken ≠
      .finished tokens := by
    intro call outer taken m
    cases taken <;> rintro ⟨⟩
  unfold step
  cases mode with
  | call call =>
    refine iff_of_false ?_ (by rintro ⟨r, ⟨⟩, -⟩)
    dsimp only
    unfold stepCall
    dsimp only
    cases nextTokenRound o call tz <;> rintro ⟨⟩
  | loop =>
    refine iff_of_false ?_ (by rintro ⟨r, ⟨⟩, -⟩)
    dsimp only
    unfold stepLoop
    dsimp only
    split
    · rintro ⟨⟩
    · split
      · exact hafter
      · rintro ⟨⟩
  | result r =>
    dsimp only
    unfold stepResult
    dsimp only
    cases outer with
    | nil =>
      dsimp only
      cases htoken : r.token with
      | some t =>
        refine iff_of_false (by rintro ⟨⟩) ?_
        rintro ⟨_, ⟨⟩, -, h, -⟩
        rw [htoken] at h
        cases h
      | none =>
        dsimp only
        by_cases hend : r.reason = .endOfInput
        · rw [if_pos hend]
          constructor
          · rintro ⟨⟩
            exact ⟨r, rfl, rfl, htoken, hend, rfl⟩
          · rintro ⟨_, ⟨⟩, -, -, -, rfl⟩
            rfl
        · rw [if_neg hend]
          refine iff_of_false (by rintro ⟨⟩) ?_
          rintro ⟨_, ⟨⟩, -, -, h, -⟩
          exact hend h
    | cons e outer =>
      obtain ⟨l, call⟩ := e
      refine iff_of_false ?_ (by rintro ⟨_, -, ⟨⟩, -⟩)
      dsimp only
      split_ifs
      · rintro ⟨⟩
      · exact hafter

theorem preserves_of_finished {tokens : List Token} (hs : m.Simple)
    (ht : m.Tracks input clean) (hend : m.step o = .finished tokens) :
    Preserves input tokens ↔ clean := by
  obtain ⟨r, hmode, houter, htoken, hreason, rfl⟩ := finished_iff.1 hend
  obtain ⟨before, source, hf, -⟩ := ht
  have hchars : m.tz.chars = [] := (hs.result r hmode).2 hreason
  have hcomplete : m.complete = m.tokens := by
    unfold complete
    rw [hmode, houter]
    change m.tokens ++ r.token.toList = m.tokens
    rw [htoken, Option.toList_none, List.append_nil]
  have hunder : m.underWay = [] := by
    unfold underWay
    rw [hmode, houter]
  rw [hcomplete, hunder] at hf
  obtain rfl := hf.began rfl
  have hinput : input = before := by rw [hf.read, hchars]; simp
  rw [hf.kept]
  constructor
  · exact fun h => ⟨h.1, rfl⟩
  · rintro ⟨h, -⟩
    have := hf.separated (hf.kept.2 ⟨h, rfl⟩)
    rw [← hinput] at this
    exact ⟨h, this⟩

theorem exists_finished {tokens : List Token} {n : Nat}
    (h : run o n m = .finished tokens) :
    ∃ f, Relation.ReflTransGen (Next o) m f ∧ f.step o = .finished tokens := by
  induction n generalizing m with
  | zero => cases h
  | succ n ih =>
    cases hstep : m.step o with
    | next m₁ =>
      rw [run_of_next hstep] at h
      obtain ⟨f, hf, hend⟩ := ih h
      exact ⟨f, .head hstep hf, hend⟩
    | finished tokens' =>
      rw [run_of_finished hstep] at h
      exact ⟨m, .refl, hstep.trans h⟩
    | stopped s =>
      rw [run_of_stopped hstep] at h
      cases h

theorem later_of_finished {tokens : List Token} {f : Machine}
    (hm : Reaches o input m) (hf : Reaches o input f) (hend : f.step o = .finished tokens) :
    Relation.ReflTransGen (Next o) m f := by
  have hunique : Relator.RightUnique (Next o) := fun a b c hb hc =>
    Outcome.next.inj (hb.symm.trans hc)
  rcases Relation.ReflTransGen.total_of_right_unique hunique hm hf with h | h
  · exact h
  · rcases h.cases_head with rfl | ⟨m', hnext, -⟩
    · exact .refl
    · exact absurd (hend.symm.trans hnext) (finished_ne_next _ _)

end Machine

open Machine

/-- **Text is kept.** Where an input without here-documents, comments and line continuations
tokenizes, its tokens keep its text if and only if no step of the run is lossy. -/
theorem preserves_iff {o : TokenizerOptions} {input : List Char} {n : Nat} {tokens : List Token}
    (hplain : ∀ m, Reaches o input m → m.Plain)
    (h : uncachedTokenizeStr o input n = some (.ok tokens)) :
    Preserves input tokens ↔ ∀ m, Reaches o input m → ¬ m.Lossy := by
  have hrun : run o n (init input) = .finished tokens := by
    unfold uncachedTokenizeStr at h
    split at h
    next => cases h
    next hr =>
      cases h
      exact hr
    next => cases h
  obtain ⟨f, hf, hend⟩ := exists_finished hrun
  have htrack : ∀ {m}, Reaches o input m → m.Simple ∧ ∃ clean, m.Tracks input clean ∧
      ((∀ m, Reaches o input m → ¬ m.Lossy) → clean) := by
    intro m hm
    obtain ⟨hs, clean, ht, -, hall⟩ := run_tracks hplain (simple_init input) (tracks_init input) hm
    exact ⟨hs, clean, ht, fun h => hall h trivial⟩
  constructor
  · intro hkept m hm hlossy
    obtain ⟨hs, clean, ht, -⟩ := htrack hm
    rcases (later_of_finished hm hf hend).cases_head with rfl | ⟨m', hnext, hlater⟩
    · obtain ⟨r, hmode, -⟩ := finished_iff.1 hend
      unfold Lossy at hlossy
      rw [hmode] at hlossy
      exact hlossy
    · obtain ⟨hs', ht'⟩ := step_tracks hs ht (hplain m hm) (hplain m' (hm.tail hnext)) hnext
      obtain ⟨hsf, clean', htf, hto, -⟩ := run_tracks
        (fun k hk => hplain k ((hm.tail hnext).trans hk)) hs' ht' hlater
      exact (hto ((preserves_of_finished hsf htf hend).1 hkept)).2 hlossy
  · intro hnone
    obtain ⟨hs, clean, ht, hclean⟩ := htrack hf
    exact (preserves_of_finished hs ht hend).2 (hclean hnone)

/-! ## A text that is lost -/

namespace Machine

/-- Every machine of a run that ends within so many steps is plain. -/
def plainRun (o : TokenizerOptions) : Nat → Machine → Bool
  | 0, _ => false
  | n + 1, m => decide m.Plain &&
      match m.step o with
      | .next m => plainRun o n m
      | _ => true

theorem plain_of_plainRun {n : Nat} {m m' : Machine}
    (h : plainRun o n m = true) (hm : Relation.ReflTransGen (Next o) m m') : m'.Plain := by
  induction n generalizing m with
  | zero => cases h
  | succ n ih =>
    unfold plainRun at h
    obtain ⟨hp, hrest⟩ := Bool.and_eq_true_iff.1 h
    rcases hm.cases_head with rfl | ⟨m₁, hnext, hlater⟩
    · exact of_decide_eq_true hp
    · rw [hnext] at hrest
      exact ih hrest hlater

end Machine

/-- `"${x:-a b}"`, with one blank. -/
def oneBlank : List Char :=
  ['"', '$', '\x7b', 'x', ':', '-', 'a', ' ', 'b', '\x7d', '"']

/-- The blank between two words of an expansion is kept. -/
theorem oneBlank_kept : Preserves oneBlank [.word oneBlank ⟨⟨0, 1, 1⟩, ⟨11, 1, 12⟩⟩] ↔
      ∀ m, Reaches defaultOptions oneBlank m → ¬ m.Lossy :=
  preserves_iff (n := 40) (fun _ hm => plain_of_plainRun (n := 40) (by decide +kernel) hm)
    (by decide +kernel)

/-- `"${x:-a  b}"`, with two blanks. -/
def twoBlanks : List Char :=
  ['"', '$', '\x7b', 'x', ':', '-', 'a', ' ', ' ', 'b', '\x7d', '"']

/-- Of two blanks between words of an expansion one is lost, in quotes too. -/
theorem twoBlanks_lost : (∀ m, Reaches defaultOptions twoBlanks m → m.Plain) ∧
    uncachedTokenizeStr defaultOptions twoBlanks 40 =
      some (.ok [.word oneBlank ⟨⟨0, 1, 1⟩, ⟨12, 1, 13⟩⟩]) ∧
    ¬ Preserves twoBlanks [.word oneBlank ⟨⟨0, 1, 1⟩, ⟨12, 1, 13⟩⟩] := by
  refine ⟨fun _ hm => plain_of_plainRun (n := 40) (by decide +kernel) hm, by decide +kernel, ?_⟩
  intro h
  have hword : oneBlank = SourceSpan.slice twoBlanks ⟨⟨0, 1, 1⟩, ⟨12, 1, 13⟩⟩ :=
    h.1 _ (List.mem_singleton_self _)
  revert hword
  decide

end Seahaven.Parser
