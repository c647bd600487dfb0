import Seahaven.Parser.Rounds

/-!
# When the tokenizer panics or does not end

`uncached_tokenize_str` on any input, with any nesting of constructs, quotes and here-documents.
A here-document's tokens are queued when its body has been read, with the reasons they ended for
where they were written. So a token that ended at the terminating character of an inner construct
can reach an outer one, which takes it for its own end.

1. `Machine.Inv` is what holds in every state of a run, `Machine.weight` how far it has to go.
2. A step keeps the one and lowers the other, and does not panic (`Machine.step_ok`), unless it is
   one of three: it replays such a token to a construct when no input is left (`Replays`), it waits
   for a here-document with an empty tag when no input is left (`Idles`), or it counts an opening
   delimiter too many (`Overflows`).
3. The tokenizer ends without a panic exactly when no state of its run is one of the three
   (`tokenizes_iff`).
-/

namespace Seahaven.Parser

open TokenParseState

/-! ## Loops -/

abbrev Held (l : ConstructLoop) (r : TokenizeResult) : Prop :=
  r.reason = .unescapedNewLine ∧ l.pending ≠ []

def Full (l : ConstructLoop) (r : TokenizeResult) : Prop :=
  ∃ t nestingOpen isArithmetic, l.construct = .nested t nestingOpen maxNesting isArithmetic ∧
    r.isOperator nestingOpen = true

/-- The counter is in its range; tokens are held back until the line ends, and taken up to the
newline. -/
structure ConstructLoop.Ok (l : ConstructLoop) : Prop where
  count : ∀ t o n b, l.construct = .nested t o n b → 0 < n ∧ n ≤ maxNesting
  held : l.drain = false → ∀ r ∈ l.pending, isHereDocument r = true
  drained : l.drain = true → ∃ hs nl, l.pending = hs ++ [nl] ∧
    (∀ r ∈ hs, isHereDocument r = true) ∧ nl.reason = .unescapedNewLine

variable {l : ConstructLoop} {r : TokenizeResult}

theorem countOpen_ok (hl : l.Ok) (hfull : ¬ Full l r) :
    ∃ l', countOpen l r = .ok l' ∧ l'.Ok ∧ l'.pending = l.pending ∧ l'.drain = l.drain := by
  obtain ⟨construct, pending, drain⟩ := l
  cases construct with
  | brace => exact ⟨_, rfl, hl, rfl, rfl⟩
  | nested t o n b =>
    unfold countOpen
    dsimp only
    by_cases hop : r.isOperator o = true
    · have hlt : n < maxNesting := by
        refine Nat.lt_of_le_of_ne (hl.count t o n b rfl).2 fun hn => hfull ⟨t, o, b, ?_, hop⟩
        rw [hn]
      rw [if_pos hop, if_pos hlt]
      refine ⟨_, rfl, ⟨?_, hl.held, hl.drained⟩, rfl, rfl⟩
      rintro _ _ _ _ ⟨⟩
      exact ⟨Nat.succ_pos _, hlt⟩
    · rw [if_neg hop]
      exact ⟨_, rfl, hl, rfl, rfl⟩

/-- What a loop does with a token, `w` being the weight of the token and of the loop. -/
def TakenOk (l : ConstructLoop) (tz : Tokenizer) (w : Nat) : Taken → Prop
  | .more l' st' tz' => l'.Ok ∧ st'.startedToken = true ∧ st'.tokenIsOperator = false ∧
      tz'.cross.HereOk ∧ tz'.weight + l'.pending.length + 2 < tz.weight + l.pending.length + w
  | .ended st' tz' => st'.startedToken = true ∧ st'.tokenIsOperator = false ∧
      tz'.cross.HereOk ∧ tz'.weight + 1 < tz.weight
  | .stop s => ∀ p, s ≠ .panic p

variable {st : TokenParseState}

theorem startedToken_append_of (h : st.startedToken = true)
    (s : List Char) : (st.append s).startedToken = true := by
  rw [startedToken_iff] at h ⊢
  unfold append
  simp [h]

variable {tz : Tokenizer} {w : Nat}

theorem terminate_ok (hl : l.Ok) (hst : st.startedToken = true) (hop : st.tokenIsOperator = false)
    (hhere : tz.cross.HereOk) (hchars : tz.chars ≠ []) :
    TakenOk l tz w (terminate l st tz) := by
  cases hc : tz.chars with
  | nil => exact absurd hc hchars
  | cons c rest =>
    have hnext : consumeNext st tz = .ok (st.append [c], tz.advance 1) := by
      unfold consumeNext
      rw [hc]
    have hweight : (tz.advance 1).weight + 40 = tz.weight := by
      rw [Tokenizer.advance_weight, Tokenizer.weight, hc, List.length_cons]
      omega
    obtain ⟨construct, pending, drain⟩ := l
    unfold terminate
    cases construct with
    | brace =>
      dsimp only
      rw [hnext]
      exact ⟨startedToken_append_of hst _, hop, ⟨hhere.tags, hhere.settled⟩, by omega⟩
    | nested t o n b =>
      have hcount := hl.count t o n b rfl
      dsimp only
      rw [if_neg (by omega), hnext]
      dsimp only
      by_cases hone : n = 1
      · rw [if_pos hone]
        refine ⟨startedToken_append_of hst _, hop, ?_, ?_⟩
        · split_ifs <;> exact ⟨hhere.tags, hhere.settled⟩
        · have hsame : (if b = true then (tz.advance 1).setArithmetic false
              else tz.advance 1).weight = (tz.advance 1).weight := by
            split_ifs <;> rfl
          omega
      · rw [if_neg hone]
        refine ⟨⟨?_, hl.held, hl.drained⟩, startedToken_append_of hst _, hop,
          ⟨hhere.tags, hhere.settled⟩, ?_⟩
        · rintro _ _ _ _ ⟨⟩
          omega
        · dsimp only
          omega

/-- **Taking a token.** -/
theorem takeToken_ok (hl : l.Ok) (hst : st.startedToken = true)
    (hop : st.tokenIsOperator = false) (hhere : tz.cross.HereOk)
    (hdrain : Held l r → l.drain = false) (hfull : Held l r ∨ ¬ Full l r)
    (hchars : r.reason = .specifiedTerminatingChar → tz.chars ≠ [])
    (hw : r.reason = .specifiedTerminatingChar ∨ r.reason = .endOfInput ∨ 3 < w ∨
      (¬ Held l r ∧ 2 < w)) : TakenOk l tz w (takeToken l r st tz) := by
  unfold takeToken
  by_cases hheld : Held l r
  · rw [if_pos hheld]
    have hdr := hdrain hheld
    refine ⟨⟨hl.count, fun h => (nomatch h), fun _ => ?_⟩, hst, hop, hhere, ?_⟩
    · exact ⟨l.pending, r, rfl, hl.held hdr, hheld.1⟩
    · dsimp only
      rw [List.length_append, List.length_singleton]
      rcases hw with hr | hr | hw | hw
      · rw [hheld.1] at hr
        cases hr
      · rw [hheld.1] at hr
        cases hr
      · omega
      · exact absurd hheld hw.1
  · rw [if_neg hheld]
    obtain ⟨l', hl', hok, hpend, -⟩ := countOpen_ok hl (hfull.resolve_left hheld)
    rw [hl']
    dsimp only
    have htext := startedToken_append_of hst r.text
    have hmore : ∀ {st' : TokenParseState}, st'.startedToken = true →
        st'.tokenIsOperator = false → r.reason ≠ .specifiedTerminatingChar →
        r.reason ≠ .endOfInput → TakenOk l tz w (.more l' st' tz) := by
      intro st' hst' hop' hstc heoi
      refine ⟨hok, hst', hop', hhere, ?_⟩
      rw [hpend]
      rcases hw with hr | hr | hw | hw
      · exact absurd hr hstc
      · exact absurd hr heoi
      · omega
      · omega
    cases hr : r.reason with
    | hereDocumentBodyStart =>
      exact hmore (startedToken_append_of htext _) hop (by simp [hr]) (by simp [hr])
    | nonNewLineBlank =>
      exact hmore (startedToken_append_of htext _) hop (by simp [hr]) (by simp [hr])
    | specifiedTerminatingChar =>
      have hterm := terminate_ok (w := w) hok htext hop hhere (hchars hr)
      unfold TakenOk at hterm ⊢
      rwa [hpend] at hterm
    | endOfInput => exact nofun
    | _ => exact hmore htext hop (by simp [hr]) (by simp [hr])

/-! ## Machines -/

variable {o : TokenizerOptions} {input : List Char}

namespace Machine

/-- The loops and calls under way, the innermost first. Only the innermost loop can be taking
tokens that were held back. -/
def Chained : List (ConstructLoop × Call) → Prop
  | [] => True
  | (l, call) :: outer => l.Ok ∧ call.state.startedToken = true ∧
      call.state.tokenIsOperator = false ∧ (call.terminatingChar = none ↔ outer = []) ∧
      (∀ e ∈ outer, e.1.drain = false) ∧ Chained outer

structure Inv (m : Machine) : Prop where
  here : m.tz.cross.HereOk
  outer : Chained m.outer
  call : ∀ call, m.mode = .call call →
    call.state.Ok ∧ (call.terminatingChar = none ↔ m.outer = [])
  settled : m.mode ≠ .loop → ∀ e ∈ m.outer, e.1.drain = false
  /-- A token ends at a terminating character that is still to be read. -/
  terminated : ∀ r, m.mode = .result r → r.reason = .specifiedTerminatingChar →
    m.outer ≠ [] → m.tz.chars ≠ []

theorem inv_init (input : List Char) : (init input).Inv where
  here := ⟨nofun, nofun⟩
  outer := trivial
  call := by rintro _ ⟨⟩
  settled h := absurd rfl h
  terminated := by rintro _ ⟨⟩

def outerWeight (outer : List (ConstructLoop × Call)) : Nat :=
  (outer.map fun e => e.1.pending.length + e.2.state.weight).sum

def modeWeight (m : Machine) : Nat :=
  match m.mode with
  | .call call => 1 + call.state.weight
  | .loop => 2
  | .result r => if m.outer = [] ∧ r.reason = .specifiedTerminatingChar then 4 else r.weight

def weight (m : Machine) : Nat := m.tz.weight + outerWeight m.outer + m.modeWeight

/-! ## The three states -/

/-- A queued token that ended at a terminating character is next, for a construct, and no input
is left. -/
def Replays (m : Machine) : Prop :=
  (∃ call, m.mode = .call call) ∧ m.outer ≠ [] ∧ m.tz.chars = [] ∧
    ∃ r queue, m.tz.cross.queuedTokens = r :: queue ∧ r.reason = .specifiedTerminatingChar

def Idles (m : Machine) : Prop :=
  ∃ call, m.mode = .call call ∧ m.tz.cross.queuedTokens = [] ∧ m.tz.chars = [] ∧
    Awaits call.state m.tz.cross

/-- The loop and the token it is about to take. -/
def taking (m : Machine) : Option (ConstructLoop × TokenizeResult) :=
  match m.outer, m.mode with
  | (l, _) :: _, .result r => if isHereDocument r then none else some (l, r)
  | (l, _) :: _, .loop =>
    match l.drain, l.pending with
    | true, r :: pending => some ({ l with pending := pending, drain := !pending.isEmpty }, r)
    | _, _ => none
  | _, _ => none

def Overflows (m : Machine) : Prop :=
  ∃ l r, m.taking = some (l, r) ∧ ¬ Held l r ∧ Full l r

/-! ## Steps -/

def StepOk (m : Machine) : Outcome → Prop
  | .next m' => m'.Inv ∧ m'.weight < m.weight
  | .finished _ => True
  | .stopped s => ∀ p, s ≠ .panic p

theorem outerWeight_cons (l : ConstructLoop) (call : Call)
    (outer : List (ConstructLoop × Call)) :
    outerWeight ((l, call) :: outer) = l.pending.length + call.state.weight + outerWeight outer := by
  unfold outerWeight
  rw [List.map_cons, List.sum_cons]

variable {m : Machine}

theorem afterTaken_ok {call : Call}
    {outer : List (ConstructLoop × Call)} {taken : Taken}
    (hchain : Chained ((l, call) :: outer)) (htaken : TakenOk l m.tz w taken)
    (hw : m.tz.weight + l.pending.length + call.state.weight + outerWeight outer + w ≤ m.weight) :
    m.StepOk (m.afterTaken call outer taken) := by
  obtain ⟨hl, hst, hop, hterm, hdrain, hchain⟩ := hchain
  rw [weight_of_started hst] at hw
  cases taken with
  | more l' st' tz' =>
    obtain ⟨hl', hst', hop', hhere, hlt⟩ := htaken
    refine ⟨⟨hhere, ⟨hl', hst', hop', hterm, hdrain, hchain⟩, (by rintro _ ⟨⟩),
      fun h => absurd rfl h, (by rintro _ ⟨⟩)⟩, ?_⟩
    have hweight : ({ m with
        tz := tz'
        outer := (l', { call with state := st' }) :: outer
        mode := .loop } : Machine).weight =
        tz'.weight + (l'.pending.length + 30 + outerWeight outer) + 2 := by
      unfold weight
      rw [outerWeight_cons]
      dsimp only
      rw [weight_of_started hst']
      rfl
    rw [hweight]
    omega
  | ended st' tz' =>
    obtain ⟨hst', hop', hhere, hlt⟩ := htaken
    refine ⟨⟨hhere, hchain, ?_, fun _ => hdrain, (by rintro _ ⟨⟩)⟩, ?_⟩
    · rintro _ ⟨⟩
      exact ⟨fun h => (by rw [hop'] at h; cases h), hterm⟩
    · have hweight : ({ m with
          tz := tz', outer := outer
          mode := .call { call with state := st' } } : Machine).weight =
          tz'.weight + outerWeight outer + (1 + 30) := by
        unfold weight modeWeight
        dsimp only
        rw [weight_of_started hst']
      rw [hweight]
      omega
  | stop s => exact htaken

theorem stepLoop_ok (hinv : m.Inv) (hmode : m.mode = .loop)
    (ho : ¬ m.Overflows) : m.StepOk m.stepLoop := by
  obtain ⟨tz, tokens, outer, mode⟩ := m
  obtain rfl : mode = .loop := hmode
  unfold stepLoop
  cases outer with
  | nil =>
    refine ⟨⟨hinv.here, trivial, ?_, ?_, ?_⟩, ?_⟩
    · rintro _ ⟨⟩
      exact ⟨ok_new _, iff_of_true rfl rfl⟩
    · rintro _ _ ⟨⟩
    · rintro _ ⟨⟩
    · unfold weight modeWeight
      dsimp only
      rw [weight_new]
      omega
  | cons e outer =>
    obtain ⟨l, call⟩ := e
    obtain ⟨construct, pending, drain⟩ := l
    have hchain := hinv.outer
    obtain ⟨hl, hst, hop, hterm, hdrain, hrest⟩ := hinv.outer
    cases drain with
    | false =>
      refine ⟨⟨hinv.here, hchain, ?_, ?_, ?_⟩, ?_⟩
      · rintro _ ⟨⟩
        exact ⟨ok_new _, iff_of_false nofun nofun⟩
      · intro _ e he
        rcases List.mem_cons.1 he with rfl | he
        · rfl
        · exact hdrain e he
      · rintro _ ⟨⟩
      · unfold weight modeWeight
        dsimp only [Construct.call]
        rw [weight_new]
        omega
    | true =>
      obtain ⟨hs, nl, hpend, hhs, hnl⟩ := hl.drained rfl
      obtain rfl : pending = hs ++ [nl] := hpend
      cases hs with
      | nil =>
        have hl' : (ConstructLoop.mk construct [] false).Ok := ⟨hl.count, fun _ => nofun, nofun⟩
        have hheld : ¬ Held ⟨construct, [], false⟩ nl := fun h => h.2 rfl
        change StepOk _ (afterTaken _ call outer (takeToken ⟨construct, [], false⟩ nl
          call.state tz))
        refine afterTaken_ok (w := 3) ⟨hl', hst, hop, hterm, hdrain, hrest⟩
          (takeToken_ok hl' hst hop hinv.here (fun h => absurd h hheld)
            (.inr fun hf => ho ⟨_, _, rfl, hheld, hf⟩) (fun h => ?_)
            (.inr (.inr (.inr ⟨hheld, by omega⟩)))) ?_
        · rw [hnl] at h
          cases h
        · unfold weight
          rw [outerWeight_cons]
          dsimp only [modeWeight, List.length_nil, List.nil_append, List.length_singleton]
          omega
      | cons h hs =>
        obtain ⟨hh, hhs⟩ := List.forall_mem_cons.1 hhs
        have hl' : (ConstructLoop.mk construct (hs ++ [nl]) true).Ok :=
          ⟨hl.count, nofun, fun _ => ⟨hs, nl, rfl, hhs, hnl⟩⟩
        have hstay : (!(hs ++ [nl]).isEmpty) = true := by simp
        have hheld : ¬ Held ⟨construct, hs ++ [nl], true⟩ h := by
          intro hheld
          rw [isHereDocument, hheld.1] at hh
          cases hh
        change StepOk _ (afterTaken _ call outer (takeToken
          { construct := construct, pending := hs ++ [nl], drain := !(hs ++ [nl]).isEmpty }
          h call.state tz))
        rw [hstay]
        refine afterTaken_ok (w := 3) ⟨hl', hst, hop, hterm, hdrain, hrest⟩
          (takeToken_ok hl' hst hop hinv.here (fun h => absurd h hheld)
            (.inr fun hf => ho ⟨_, h, ?_, hheld, hf⟩) (fun hr => ?_)
            (.inr (.inr (.inr ⟨hheld, by omega⟩)))) ?_
        · change some _ = some _
          rw [← hstay]
          rfl
        · rw [isHereDocument, hr] at hh
          cases hh
        · unfold weight
          rw [outerWeight_cons]
          dsimp only [modeWeight, List.cons_append, List.length_cons]
          omega

theorem stepResult_ok (hinv : m.Inv)
    (hmode : m.mode = .result r) (ho : ¬ m.Overflows) : m.StepOk (m.stepResult r) := by
  obtain ⟨tz, tokens, outer, mode⟩ := m
  obtain rfl : mode = .result r := hmode
  unfold stepResult
  cases outer with
  | nil =>
    have hloop : ∀ tokens', ¬ (r.token = none ∧ r.reason = .endOfInput) →
        StepOk ⟨tz, tokens, [], .result r⟩ (.next ⟨tz, tokens', [], .loop⟩) := by
      intro tokens' hr
      refine ⟨⟨hinv.here, trivial, (by rintro _ ⟨⟩), fun h => absurd rfl h,
        (by rintro _ ⟨⟩)⟩, ?_⟩
      have hw : modeWeight ⟨tz, tokens, [], .result r⟩ = 4 := by
        unfold modeWeight TokenizeResult.weight
        dsimp only
        split_ifs with h1 h2
        · rfl
        · rcases h2.2 with h | h
          · exact absurd ⟨rfl, h⟩ h1
          · exact absurd ⟨h2.1, h⟩ hr
        · rfl
      unfold weight
      rw [hw]
      change tz.weight + outerWeight [] + 2 < tz.weight + outerWeight [] + 4
      omega
    cases ht : r.token with
    | some t => exact hloop _ (by simp [ht])
    | none =>
      dsimp only
      by_cases hr : r.reason = .endOfInput
      · rw [if_pos hr]
        trivial
      · rw [if_neg hr]
        exact hloop tokens fun h => hr h.2
  | cons e outer =>
    obtain ⟨l, call⟩ := e
    have hchain := hinv.outer
    have hdr : l.drain = false := hinv.settled nofun _ (List.mem_cons_self ..)
    obtain ⟨hl, hst, hop, hterm, hdrain, hrest⟩ := hinv.outer
    have hw : modeWeight ⟨tz, tokens, (l, call) :: outer, .result r⟩ = r.weight := by
      unfold modeWeight
      dsimp only
      rw [if_neg (by simp)]
    dsimp only
    by_cases hhere : isHereDocument r = true
    · rw [if_pos hhere]
      have hheavy : r.weight = 4 := by
        unfold TokenizeResult.weight
        rw [if_neg]
        rintro ⟨-, hr | hr⟩ <;>
        · rw [isHereDocument, hr] at hhere
          cases hhere
      refine ⟨⟨hinv.here, ⟨⟨hl.count, fun _ => ?_, fun h => ?_⟩, hst, hop, hterm, hdrain, hrest⟩,
        (by rintro _ ⟨⟩), fun h => absurd rfl h, (by rintro _ ⟨⟩)⟩, ?_⟩
      · intro x hx
        rcases List.mem_append.1 hx with hx | hx
        · exact hl.held hdr x hx
        · rw [List.mem_singleton.1 hx]
          exact hhere
      · rw [hdr] at h
        cases h
      · unfold weight
        rw [hw, hheavy, outerWeight_cons, outerWeight_cons]
        dsimp only [modeWeight]
        rw [List.length_append, List.length_singleton]
        omega
    · rw [if_neg hhere]
      refine afterTaken_ok (w := r.weight) hchain
        (takeToken_ok hl hst hop hinv.here (fun _ => hdr) ?_ (fun hr => ?_) ?_) ?_
      · by_cases hheld : Held l r
        · exact .inl hheld
        · refine .inr fun hf => ho ⟨l, r, ?_, hheld, hf⟩
          unfold taking
          dsimp only
          rw [if_neg hhere]
      · exact hinv.terminated r rfl hr nofun
      · by_cases hstc : r.reason = .specifiedTerminatingChar
        · exact .inl hstc
        by_cases heoi : r.reason = .endOfInput
        · exact .inr (.inl heoi)
        refine .inr (.inr (.inl ?_))
        unfold TokenizeResult.weight
        rw [if_neg]
        · omega
        · rintro ⟨-, h | h⟩
          · exact hstc h
          · exact heoi h
      · unfold weight
        rw [hw, outerWeight_cons]
        dsimp only
        omega

theorem stepCall_ok {call : Call} (hinv : m.Inv)
    (hmode : m.mode = .call call) (hr : ¬ m.Replays) (hi : ¬ m.Idles) :
    m.StepOk (m.stepCall o call) := by
  obtain ⟨tz, tokens, outer, mode⟩ := m
  obtain rfl : mode = .call call := hmode
  obtain ⟨hst, hterm⟩ := hinv.call call rfl
  have hsettled := hinv.settled nofun
  unfold stepCall
  cases hq : tz.cross.queuedTokens with
  | cons r queue =>
    have hround : nextTokenRound o call tz =
        .done r { tz with cross := { tz.cross with queuedTokens := queue } } := by
      unfold nextTokenRound
      rw [hq]
    dsimp only
    rw [hround]
    refine ⟨⟨⟨hinv.here.tags, hinv.here.settled⟩, hinv.outer, (by rintro _ ⟨⟩),
      fun _ => hsettled, ?_⟩, ?_⟩
    · rintro _ ⟨⟩ hstc hne hchars
      exact hr ⟨⟨call, rfl⟩, hne, hchars, r, queue, hq, hstc⟩
    · have hle := r.weight_le
      have hmw : modeWeight ⟨{ tz with cross := { tz.cross with queuedTokens := queue } }, tokens,
          outer, .result r⟩ ≤ 4 := by
        unfold modeWeight
        dsimp only
        split_ifs <;> omega
      have hcross : tz.cross.weight =
          ({ tz.cross with queuedTokens := queue } : CrossTokenParseState).weight + 5 := by
        unfold CrossTokenParseState.weight
        rw [hq, List.length_cons]
        dsimp only
        omega
      unfold weight Tokenizer.weight
      rw [hcross]
      dsimp only [modeWeight] at hmw ⊢
      omega
  | nil =>
    have hround : RoundOk call tz (nextTokenRound o call tz) := by
      unfold nextTokenRound
      rw [hq]
      cases hc : tz.chars with
      | nil => exact endOfInputRound_ok hinv.here fun haw => hi ⟨call, rfl, hq, hc, haw⟩
      | cons c rest => exact charRound_ok hc hinv.here hst
    dsimp only
    cases hn : nextTokenRound o call tz with
    | stop s =>
      rw [hn] at hround
      exact hround
    | more st' tz' =>
      rw [hn] at hround
      obtain ⟨hst', hhere, hlt⟩ := hround
      refine ⟨⟨hhere, hinv.outer, ?_, fun _ => hsettled, (by rintro _ ⟨⟩)⟩, ?_⟩
      · rintro _ ⟨⟩
        exact ⟨hst', hterm⟩
      · unfold weight
        dsimp only [modeWeight]
        omega
    | done r tz' =>
      rw [hn] at hround
      obtain ⟨hhere, hlt, hstc⟩ := hround
      refine ⟨⟨hhere, hinv.outer, (by rintro _ ⟨⟩),
      fun _ => hsettled, ?_⟩, ?_⟩
      · rintro _ ⟨⟩ h _
        exact (hstc h).1
      · have hmw : modeWeight ⟨tz', tokens, outer, .result r⟩ = r.weight := by
          unfold modeWeight
          dsimp only
          rw [if_neg]
          rintro ⟨hnil, h⟩
          exact (hstc h).2 (hterm.2 hnil)
        unfold weight
        rw [hmw]
        dsimp only [modeWeight]
        omega
    | enter k st' tz' =>
      rw [hn] at hround
      obtain ⟨hst', hop', hhere, hlt, hk⟩ := hround
      refine ⟨⟨hhere, ⟨⟨?_, fun _ => nofun, nofun⟩, hst', hop', hterm, hsettled, hinv.outer⟩,
        (by rintro _ ⟨⟩), fun h => absurd rfl h, (by rintro _ ⟨⟩)⟩, ?_⟩
      · intro t op n b hkn
        obtain ⟨h0, h1⟩ := hk t op n b hkn
        exact ⟨h0, h1.le⟩
      · unfold weight
        rw [outerWeight_cons]
        dsimp only [modeWeight, List.length_nil]
        omega

/-- **Step lemma.** A step that is none of the three keeps the invariant, does not panic, and
brings the end nearer. -/
theorem step_ok (hinv : m.Inv) (hr : ¬ m.Replays)
    (hi : ¬ m.Idles) (ho : ¬ m.Overflows) : m.StepOk (m.step o) := by
  unfold step
  cases hmode : m.mode with
  | call call => exact stepCall_ok hinv hmode hr hi
  | loop => exact stepLoop_ok hinv hmode ho
  | result r => exact stepResult_ok hinv hmode ho

/-! ## Runs -/

def Fails (m : Machine) : Prop := m.Replays ∨ m.Idles ∨ m.Overflows

/-- **Run lemma.** -/
theorem Reaches.inv (h : Reaches o input m) (hok : ∀ m, Reaches o input m → ¬ m.Fails) : m.Inv := by
  induction h with
  | refl => exact inv_init input
  | @tail m m' hreach hnext ih =>
    have hfails := hok m hreach
    have hstep := step_ok (o := o) ih (fun h => hfails (.inl h)) (fun h => hfails (.inr (.inl h)))
      (fun h => hfails (.inr (.inr h)))
    rw [show m.step o = .next m' from hnext] at hstep
    exact hstep.1

theorem exists_end (hok : ∀ m, Reaches o input m → ¬ m.Fails) (hm : Reaches o input m) :
    ∃ n, (∃ tokens, run o n m = .finished tokens) ∨
      ∃ s, run o n m = .stopped s ∧ ∀ p, s ≠ .panic p := by
  induction hw : m.weight using Nat.strong_induction_on generalizing m with
  | _ w ih =>
    have hfails := hok m hm
    have hstep := step_ok (o := o) (hm.inv hok) (fun h => hfails (.inl h))
      (fun h => hfails (.inr (.inl h))) (fun h => hfails (.inr (.inr h)))
    cases hs : m.step o with
    | finished tokens =>
      refine ⟨1, .inl ⟨tokens, ?_⟩⟩
      rw [run, hs]
    | stopped s =>
      rw [hs] at hstep
      refine ⟨1, .inr ⟨s, ?_, hstep⟩⟩
      rw [run, hs]
    | next m' =>
      rw [hs] at hstep
      obtain ⟨n, hn⟩ := ih m'.weight (hw ▸ hstep.2) (hm.tail hs) rfl
      refine ⟨n + 1, ?_⟩
      rwa [run, hs]

theorem countOpen_error {s : Stop}
    (h : countOpen l r = .error s) : s = .panic .nestingCount := by
  unfold countOpen at h
  split at h
  · cases h
  · split_ifs at h
    exact (Except.error.inj h).symm

theorem terminate_panics (hchars : tz.chars = []) : ∃ p, terminate l st tz = .stop (.panic p) := by
  have hnext : consumeNext st tz = .error (.panic .nextChar) := by
    unfold consumeNext
    rw [hchars]
  unfold terminate
  split
  · rw [hnext]
    exact ⟨_, rfl⟩
  next t o n b _ =>
    by_cases hn : n = 0
    · rw [if_pos hn]
      exact ⟨_, rfl⟩
    · rw [if_neg hn, hnext]
      exact ⟨_, rfl⟩

theorem takeToken_panics (l : ConstructLoop) (st : TokenParseState)
    (hchars : tz.chars = []) (hr : r.reason = .specifiedTerminatingChar) :
    ∃ p, takeToken l r st tz = .stop (.panic p) := by
  unfold takeToken
  rw [if_neg (by simp [hr])]
  cases hc : countOpen l r with
  | error s => exact ⟨_, by rw [countOpen_error hc]⟩
  | ok l' =>
    dsimp only
    rw [hr]
    exact terminate_panics hchars

theorem replays_panics (h : m.Replays) :
    ∃ p, run o 2 m = .stopped (.panic p) := by
  obtain ⟨tz, tokens, outer, mode⟩ := m
  obtain ⟨⟨call, hmode⟩, hne, hchars, r, queue, hq, hr⟩ := h
  obtain rfl : mode = .call call := hmode
  cases outer with
  | nil => exact absurd rfl hne
  | cons e outer =>
    obtain ⟨l, call'⟩ := e
    have hround : nextTokenRound o call tz =
        .done r { tz with cross := { tz.cross with queuedTokens := queue } } := by
      unfold nextTokenRound
      rw [hq]
    obtain ⟨p, hp⟩ := takeToken_panics l call'.state
      (show ({ tz with cross := { tz.cross with queuedTokens := queue } } : Tokenizer).chars = []
        from hchars) hr
    have hhere : ¬ isHereDocument r = true := by
      rw [isHereDocument, hr]
      decide
    refine ⟨p, ?_⟩
    unfold run
    dsimp only [step, stepCall]
    rw [hround]
    dsimp only [run, step, stepResult]
    rw [if_neg hhere, hp]
    rfl

theorem overflows_panics (h : m.Overflows) :
    ∃ p, run o 1 m = .stopped (.panic p) := by
  obtain ⟨l, r, htaking, hheld, t, op, b, hl, hop⟩ := h
  have htaken : ∀ st tz, takeToken l r st tz = .stop (.panic .nestingCount) := by
    intro st tz
    have hcount : countOpen l r = .error (.panic .nestingCount) := by
      unfold countOpen
      rw [hl]
      dsimp only
      rw [if_pos hop, if_neg (Nat.lt_irrefl _)]
    unfold takeToken
    rw [if_neg hheld, hcount]
  refine ⟨.nestingCount, ?_⟩
  obtain ⟨tz, tokens, outer, mode⟩ := m
  unfold taking at htaking
  dsimp only at htaking
  split at htaking
  next l' call outer r' =>
    split_ifs at htaking with hhere
    obtain ⟨rfl, rfl⟩ := Prod.mk.inj (Option.some.inj htaking)
    unfold run
    dsimp only [step, stepResult]
    rw [if_neg hhere, htaken]
    rfl
  next l' call outer =>
    split at htaking
    next r' pending hdrain hpend =>
      obtain ⟨rfl, rfl⟩ := Prod.mk.inj (Option.some.inj htaking)
      unfold run
      dsimp only [step, stepLoop]
      rw [hdrain, hpend]
      dsimp only
      rw [htaken]
      rfl
    next => cases htaking
  next => cases htaking

theorem awaits_delimited {cross : CrossTokenParseState}
    (h : Awaits st cross) : ∃ cross',
      st.removeHereEndTag false cross = .ok (some (none, new cross.cursor, cross')) ∧
      cross'.queuedTokens = cross.queuedTokens ∧ Awaits (new cross.cursor) cross' := by
  obtain ⟨hnil, hunq, ⟨hnone, hin⟩, tag, tags, htags, htag⟩ := h
  obtain ⟨cursor, hereState, currentHereTags, queuedTokens, arithmetic⟩ := cross
  obtain rfl : currentHereTags = tag :: tags := htags
  have hstrip : stripSuffix (hereEndTag tag false) st.tokenSoFar = some [] := by
    rw [htag, hnil]
    rfl
  unfold removeHereEndTag
  dsimp only
  rw [hstrip]
  dsimp only
  rw [if_pos (.inl rfl)]
  unfold delimitCurrentToken
  rw [if_neg (fun h => h.2 rfl)]
  cases hereState with
  | none => exact absurd rfl hnone
  | inHereDocs => exact absurd rfl hin
  | nextTokenIsHereTag removeTabs =>
    exact ⟨_, rfl, rfl, rfl, rfl, ⟨nofun, nofun⟩, tag, tags, rfl, htag⟩
  | currentTokenIsHereTag removeTabs op =>
    exact ⟨_, rfl, rfl, rfl, rfl, ⟨nofun, nofun⟩, tag, _, rfl, htag⟩
  | nextLineIsHereDoc =>
    rcases List.eq_nil_or_concat' tags with rfl | ⟨tags, last, rfl⟩
    · exact ⟨_, rfl, rfl, rfl, rfl, ⟨nofun, nofun⟩, _, _, rfl, htag⟩
    · rw [← List.cons_append, List.getLast?_concat, List.dropLast_concat]
      exact ⟨_, rfl, rfl, rfl, rfl, ⟨nofun, nofun⟩, tag, _, rfl, htag⟩

theorem idles_next (h : m.Idles) :
    ∃ m', m.step o = .next m' ∧ m'.Idles := by
  obtain ⟨⟨chars, cross⟩, tokens, outer, mode⟩ := m
  obtain ⟨call, hmode, hq, hchars, haw⟩ := h
  obtain rfl : mode = .call call := hmode
  obtain rfl : chars = [] := hchars
  obtain ⟨cross', hremove, hqueue, haw'⟩ := awaits_delimited haw
  have hround : nextTokenRound o call ⟨[], cross⟩ = .more (new cross.cursor) ⟨[], cross'⟩ := by
    have hunq := haw.unquoted
    unfold unquoted at hunq
    rw [Bool.and_eq_true, Bool.not_eq_true', beq_iff_eq] at hunq
    unfold nextTokenRound
    dsimp only at hq hremove ⊢
    rw [hq]
    dsimp only
    unfold endOfInputRound
    rw [hunq.1, hunq.2]
    dsimp only
    rw [if_neg nofun, if_neg haw.pending.1, hremove]
    rfl
  refine ⟨⟨⟨[], cross'⟩, tokens, outer,
    .call { call with state := new cross.cursor }⟩, ?_, ?_⟩
  · unfold step
    dsimp only
    unfold stepCall
    rw [hround]
  · exact ⟨_, rfl, hqueue.trans hq, rfl, haw'⟩

theorem idles_run (n : Nat) (h : m.Idles) :
    ∃ m', run o n m = .next m' := by
  induction n generalizing m with
  | zero => exact ⟨m, rfl⟩
  | succ n ih =>
    obtain ⟨m', hs, hm'⟩ := idles_next (o := o) h
    rw [run, hs]
    exact ih hm'

/-! ## Runs that end -/

theorem run_of_next {m' : Machine} (h : m.step o = .next m') (n : Nat) :
    run o (n + 1) m = run o n m' := by
  rw [run, h]

theorem run_of_finished {tokens : List Token}
    (h : m.step o = .finished tokens) (n : Nat) : run o (n + 1) m = .finished tokens := by
  rw [run, h]

theorem run_of_stopped {s : Stop}
    (h : m.step o = .stopped s) (n : Nat) : run o (n + 1) m = .stopped s := by
  rw [run, h]

theorem run_add (o : TokenizerOptions) (a b : Nat) {m' : Machine}
    (h : run o a m = .next m') : run o (a + b) m = run o b m' := by
  induction a generalizing m with
  | zero =>
    rw [Nat.zero_add]
    obtain rfl := Outcome.next.inj h
    rfl
  | succ a ih =>
    rw [Nat.add_right_comm]
    cases hs : m.step o with
    | next m₁ =>
      rw [run_of_next hs] at h ⊢
      exact ih h
    | finished tokens =>
      rw [run_of_finished hs] at h
      cases h
    | stopped s =>
      rw [run_of_stopped hs] at h
      cases h

theorem run_ended (o : TokenizerOptions) (a b : Nat) {out : Outcome}
    (h : run o a m = out) (hout : ∀ m', out ≠ .next m') : run o (a + b) m = out := by
  induction a generalizing m with
  | zero => exact absurd h.symm (hout m)
  | succ a ih =>
    rw [Nat.add_right_comm]
    cases hs : m.step o with
    | next m₁ =>
      rw [run_of_next hs] at h ⊢
      exact ih h
    | finished tokens =>
      rw [run_of_finished hs] at h ⊢
      exact h
    | stopped s =>
      rw [run_of_stopped hs] at h ⊢
      exact h

theorem run_unique {a b : Nat} {out out' : Outcome}
    (h : run o a m = out) (h' : run o b m = out') (hout : ∀ m', out ≠ .next m')
    (hout' : ∀ m', out' ≠ .next m') : out = out' := by
  have h1 := run_ended o a b h hout
  have h2 := run_ended o b a h' hout'
  rw [Nat.add_comm, h1] at h2
  exact h2

theorem stopped_ne_next (s : Stop) (m : Machine) : Outcome.stopped s ≠ .next m := by
  rintro ⟨⟩

theorem finished_ne_next (tokens : List Token) (m : Machine) :
    Outcome.finished tokens ≠ .next m := by
  rintro ⟨⟩

theorem Reaches.run {o : TokenizerOptions} {input : List Char} {m : Machine}
    (h : Reaches o input m) : ∃ n, Machine.run o n (init input) = .next m := by
  induction h with
  | refl => exact ⟨0, rfl⟩
  | @tail m m' _ hnext ih =>
    obtain ⟨n, hn⟩ := ih
    refine ⟨n + 1, ?_⟩
    rw [run_add o n 1 hn]
    exact run_of_next hnext 0

theorem fails_run (h : m.Fails) (n : Nat) :
    (∃ m', run o n m = .next m') ∨ ∃ p, run o n m = .stopped (.panic p) := by
  have hpanic : ∀ k, (∃ p, run o k m = .stopped (.panic p)) →
      (∃ m', run o n m = .next m') ∨ ∃ p, run o n m = .stopped (.panic p) := by
    rintro k ⟨p, hp⟩
    by_cases hend : ∃ m', run o n m = .next m'
    · exact .inl hend
    · exact .inr ⟨p, run_unique rfl hp (fun m' h => hend ⟨m', h⟩) (stopped_ne_next _)⟩
  rcases h with h | h | h
  · exact hpanic 2 (replays_panics h)
  · exact .inl (idles_run n h)
  · exact hpanic 1 (overflows_panics h)

end Machine

/-! ## The tokenizer -/

open Machine

def Tokenizes (o : TokenizerOptions) (input : List Char) : Prop :=
  ∃ n r, uncachedTokenizeStr o input n = some r ∧ ∀ p, r ≠ .error (.panic p)

/-- **Panics and termination.** The tokenizer ends without a panic if and only if in no state of
its run it replays a terminated token at the end of the input, waits there for a here-document
with an empty tag, or counts an opening delimiter too many. -/
theorem tokenizes_iff (o : TokenizerOptions) (input : List Char) :
    Tokenizes o input ↔ ∀ m, Reaches o input m → ¬ m.Fails := by
  constructor
  · rintro ⟨n, r, hr, hpanic⟩ m hm hfails
    obtain ⟨k, hk⟩ := hm.run
    unfold uncachedTokenizeStr at hr
    have hout : ∀ m', run o n (init input) ≠ .next m' := by
      intro m' h
      rw [h] at hr
      cases hr
    have hlong := run_ended o n k rfl hout
    rw [Nat.add_comm, run_add o k n hk] at hlong
    rcases fails_run (o := o) hfails n with ⟨m', h⟩ | ⟨p, h⟩
    · exact hout m' (hlong ▸ h)
    · rw [← hlong, h] at hr
      exact hpanic p (Option.some.inj hr).symm
  · intro hok
    obtain ⟨n, ⟨tokens, h⟩ | ⟨s, h, hs⟩⟩ := exists_end hok (m := init input) .refl
    · refine ⟨n, .ok tokens, ?_, nofun⟩
      unfold uncachedTokenizeStr
      rw [h]
    · refine ⟨n, .error s, ?_, fun p hp => hs p (Except.error.inj hp)⟩
      unfold uncachedTokenizeStr
      rw [h]

/-! ## Inputs that fail -/

/-- The options of `Default`. -/
abbrev defaultOptions : TokenizerOptions where
  enableExtendedGlobbing := true
  shMode := false

theorem not_tokenizes_of_panic {n : Nat} {p : Panic}
    (h : uncachedTokenizeStr o input n = some (.error (.panic p))) : ¬ Tokenizes o input := by
  rintro ⟨k, r, hr, hpanic⟩
  have hstopped : run o n (init input) = .stopped (.panic p) := by
    unfold uncachedTokenizeStr at h
    split at h
    next => cases h
    next => cases h
    next s hs =>
      cases h
      exact hs
  unfold uncachedTokenizeStr at hr
  split at hr
  next => cases hr
  next tokens hk =>
    have := run_unique hk hstopped (finished_ne_next _) (stopped_ne_next _)
    cases this
  next s hk =>
    obtain rfl := Outcome.stopped.inj
      (run_unique hk hstopped (stopped_ne_next _) (stopped_ne_next _))
    exact hpanic p (Option.some.inj hr).symm

/-- A here-document that is written in a substitution and ends with the input, in a substitution
of its own. -/
theorem nestedHereDoc_panics : ¬ Tokenizes defaultOptions
    ['$', '(', '$', '(', 'c', 'a', 't', ' ', '<', '<', 'E', ')', '\n', 'E'] :=
  not_tokenizes_of_panic (n := 60) (p := .nextChar) (by decide +kernel)

end Seahaven.Parser
