import Seahaven.Parser.Panics

/-!
# Here-documents and arithmetic

Inside an arithmetic construct `<<` shifts. The tokenizer keeps one flag for all of them: `$((` and
`$[` set it and clear it, `((` sets it and the next `))` clears it.

1. `inArithmetic` is whether such a construct is open. The constructs of the calls under way are in
   the machine; the arithmetic command of `((` is followed along the run (`ArithmeticCommand.next`).
2. `Outermost` are the steps at which the flag is set and cleared with the outermost construct.
3. `Nests.guarded`: in a run of such steps `<<` starts a here-document outside of arithmetic
   constructs, and nowhere else.
-/

namespace Seahaven.Parser

open TokenParseState

def Construct.isArithmetic : Construct → Bool
  | .nested _ _ _ isArithmetic => isArithmetic
  | .brace => false

def Construct.count : Construct → Nat
  | .nested _ _ count _ => count
  | .brace => 0

/-! ## Where the tokenizer is -/

def Call.endsAt (o : TokenizerOptions) (call : Call) (tz : Tokenizer) (op : List Char) (c : Char) :
    Bool :=
  tz.cross.queuedTokens.isEmpty && tz.chars.head? == some c &&
    tz.cross.hereState != .inHereDocs && !(call.state.unquoted && call.terminatingChar == some c) &&
    call.state.isSpecificOperator op && !(call.state.unquoted && isOperator o (op ++ [c]))

/-- The arithmetic command of a `((`: how many constructs it stands in, and how many of its
parentheses are open. -/
structure ArithmeticCommand where
  level : Nat
  parens : Nat
  deriving DecidableEq

namespace Machine

def endsAt (o : TokenizerOptions) (m : Machine) (op : List Char) (c : Char) : Bool :=
  match m.mode with
  | .call call => call.endsAt o m.tz op c
  | _ => false

def hasRead (m : Machine) (op : List Char) : Bool :=
  match m.mode with
  | .call call => call.state.isSpecificOperator op
  | _ => false

def countsDown (m m' : Machine) : Bool :=
  match m.outer, m'.outer with
  | (l, _) :: _, (l', _) :: _ => l'.construct.count < l.construct.count
  | _, _ => false

def inConstruct (m : Machine) : Bool := m.outer.any fun e => e.1.construct.isArithmetic

def inArithmetic (m : Machine) (g : Option ArithmeticCommand) : Bool := g.isSome || m.inConstruct

end Machine

open Machine

def ArithmeticCommand.close (g : ArithmeticCommand) : Option ArithmeticCommand :=
  if g.parens ≤ 1 then none else some { g with parens := g.parens - 1 }

/-- What a step makes of an arithmetic command: it ends with `))`, or when its parentheses are
closed, or with the construct it stands in. -/
def ArithmeticCommand.after (g : ArithmeticCommand) (m m' : Machine) : Option ArithmeticCommand :=
  if m'.outer.length < g.level then none
  else if m.outer.length ≠ g.level then some g
  else if m.hasRead ['('] then some { g with parens := g.parens + 1 }
  else if m.hasRead [')'] then
    if g.parens = 2 ∧ m.tz.chars.head? = some ')' then none else g.close
  else if m.countsDown m' then g.close
  else some g

/-- What a step makes of the arithmetic command under way. One begins with `((` where no arithmetic
construct is open. -/
def ArithmeticCommand.next (o : TokenizerOptions) (m m' : Machine) :
    Option ArithmeticCommand → Option ArithmeticCommand
  | none =>
    if m.inConstruct = false ∧ m.endsAt o ['('] '(' = true then some ⟨m.outer.length, 1⟩ else none
  | some g => g.after m m'

/-- The runs on an input whose steps meet a condition, with the arithmetic command under way. -/
inductive Nests (o : TokenizerOptions) (input : List Char)
    (P : Machine → Machine → Option ArithmeticCommand → Prop) :
    Machine → Option ArithmeticCommand → Prop
  | init : Nests o input P (init input) none
  | next {m m' : Machine} {g : Option ArithmeticCommand} : Nests o input P m g →
      m.step o = .next m' → P m m' g → Nests o input P m' (ArithmeticCommand.next o m m' g)

/-! ## What is claimed and when it holds -/

def CrossTokenParseState.awaitsTag (cross : CrossTokenParseState) : Bool :=
  match cross.hereState with
  | .nextTokenIsHereTag _ | .currentTokenIsHereTag _ _ => true
  | _ => false

/-- An arithmetic construct is closed only where it is the outermost one, as far as the flag is
concerned; and none is entered in the word of a tag. -/
structure Outermost (o : TokenizerOptions) (m m' : Machine) (g : Option ArithmeticCommand) : Prop
    where
  /-- A `$((` or `$[` that is closed. -/
  construct : m'.outer.length < m.outer.length →
    (m.outer.head?.any fun e => e.1.construct.isArithmetic) = true →
      g = none ∧ (m.outer.tail.any fun e => e.1.construct.isArithmetic) = false
  /-- Two closing parentheses next to each other close the `((`, -/
  pair : m.endsAt o [')'] ')' = true → m.inArithmetic g = true →
    m.inConstruct = false ∧ g.any fun g => g.level == m.outer.length && g.parens ≤ 2
  /-- and nothing else closes one. -/
  command : g.isSome = true → ArithmeticCommand.next o m m' g = none → m.endsAt o [')'] ')' = true
  tag : m.outer.length < m'.outer.length →
    (m'.outer.head?.any fun e => e.1.construct.isArithmetic) = true →
      m.tz.cross.awaitsTag = false

/-- Inside an arithmetic construct a step starts no here-document and records no tag; outside `<<`
and `<<-` start one. -/
structure Guarded (o : TokenizerOptions) (m : Machine) (g : Option ArithmeticCommand) : Prop where
  inside : m.inArithmetic g = true → ∀ m', m.step o = .next m' →
    m'.tz.cross.awaitsTag = false ∧
      m'.tz.cross.currentHereTags.length ≤ m.tz.cross.currentHereTags.length
  outside : m.inArithmetic g = false → ∀ op c, op = ['<', '<'] ∨ op = ['<', '<', '-'] →
    m.endsAt o op c = true → ∃ m', m.step o = .next m' ∧ m'.tz.cross.awaitsTag = true

/-! ## Ending a token -/

def CrossTokenParseState.Settled (cross : CrossTokenParseState) : Prop :=
  ∀ b, cross.hereState ≠ .nextTokenIsHereTag b

/-- No here-document is started and no tag is recorded. -/
structure Calm (cross cross' : CrossTokenParseState) : Prop where
  awaits : cross'.awaitsTag = false
  tags : cross'.currentHereTags.length ≤ cross.currentHereTags.length

theorem awaitsTag_eq_false {cross : CrossTokenParseState} (h : cross.awaitsTag = false) :
    cross.Settled ∧ ∀ b r, cross.hereState ≠ .currentTokenIsHereTag b r := by
  unfold CrossTokenParseState.awaitsTag at h
  constructor
  · intro b hstate
    rw [hstate] at h
    cases h
  · intro b r hstate
    rw [hstate] at h
    cases h

variable {st : TokenParseState}

theorem delimit_flag {st' : TokenParseState} {reason : TokenEndReason}
    {cross cross' : CrossTokenParseState} {r : Option TokenizeResult}
    (h : st.delimitCurrentToken reason cross = .ok (r, st', cross')) :
    cross'.arithmeticExpansion = cross.arithmeticExpansion ∧
      (cross.Settled ∨ st.startedToken = true → cross'.Settled) ∧
      (cross.Settled → st.startedToken = true → cross'.awaitsTag = false) ∧
      (cross.awaitsTag = false → Calm cross cross') := by
  unfold delimitCurrentToken at h
  by_cases hno : st.startedToken = false ∧ reason ≠ .hereDocumentBodyEnd
  · rw [if_pos hno] at h
    cases h
    refine ⟨rfl, fun hs => hs.resolve_right ?_, fun _ hs => ?_, fun ha => ⟨ha, le_rfl⟩⟩
    · rw [hno.1]
      exact nofun
    · rw [hno.1] at hs
      cases hs
  rw [if_neg hno] at h
  obtain ⟨cursor, hereState, tags, queue, arithmetic⟩ := cross
  cases hereState with
  | none =>
    cases h
    exact ⟨rfl, fun _ => nofun, fun _ _ => rfl, fun _ => ⟨rfl, le_rfl⟩⟩
  | nextTokenIsHereTag removeTabs =>
    cases h
    exact ⟨rfl, fun _ => nofun, fun hs => absurd rfl (hs _), nofun⟩
  | currentTokenIsHereTag removeTabs op =>
    dsimp only at h
    split_ifs at h
    cases h
    exact ⟨rfl, fun _ => nofun, fun _ _ => rfl, nofun⟩
  | nextLineIsHereDoc =>
    dsimp only at h
    rcases List.eq_nil_or_concat' tags with rfl | ⟨tags, last, rfl⟩
    · cases h
    rw [List.getLast?_concat, List.dropLast_concat] at h
    cases h
    have hawaits : CrossTokenParseState.awaitsTag ⟨cursor,
        if st.isNewline then .inHereDocs else .nextLineIsHereDoc,
        tags ++ [{ last with pendingTokensAfter := last.pendingTokensAfter ++
          [⟨reason, some (st.pop cursor)⟩] }], queue, arithmetic⟩ = false := by
      unfold CrossTokenParseState.awaitsTag
      dsimp only
      split_ifs <;> rfl
    refine ⟨rfl, fun _ => (awaitsTag_eq_false hawaits).1, fun _ _ => hawaits, fun _ => ⟨hawaits, ?_⟩⟩
    dsimp only
    rw [List.length_append, List.length_append]
    exact le_rfl
  | inHereDocs =>
    dsimp only at h
    cases tags with
    | nil => cases h
    | cons completed tags =>
      cases h
      have hawaits : ∀ (tags : List HereTag) queue, CrossTokenParseState.awaitsTag ⟨cursor,
          if tags.isEmpty then .none else .inHereDocs, tags, queue, arithmetic⟩ = false := by
        intro tags queue
        unfold CrossTokenParseState.awaitsTag
        dsimp only
        split_ifs <;> rfl
      exact ⟨rfl, fun _ => (awaitsTag_eq_false (hawaits _ _)).1, fun _ _ => hawaits _ _,
        fun _ => ⟨hawaits _ _, Nat.le_succ _⟩⟩

/-! ## Rounds -/

def flagAfter (o : TokenizerOptions) (call : Call) (tz : Tokenizer) : Bool :=
  if tz.cross.arithmeticExpansion then !call.endsAt o tz [')'] ')' else call.endsAt o tz ['('] '('

/-- What a round does to the flag and the tags. -/
structure RoundFlag (flag : Bool) (opens : Bool) (tz tz' : Tokenizer) : Prop where
  flag : tz'.cross.arithmeticExpansion = flag
  settled : tz'.cross.Settled
  opens : opens = true → tz'.cross.awaitsTag = false
  calm : tz.cross.arithmeticExpansion = true → tz.cross.awaitsTag = false → Calm tz.cross tz'.cross

def RoundGuarded (flag : Bool) (opens : Bool) (tz : Tokenizer) : Round → Prop
  | .more _ tz' => RoundFlag flag opens tz tz'
  | .done _ tz' => RoundFlag flag opens tz tz'
  | .enter k _ tz' => flag = tz.cross.arithmeticExpansion ∧ opens = false ∧
      tz'.cross.arithmeticExpansion = (k.isArithmetic || tz.cross.arithmeticExpansion) ∧
      tz'.cross.hereState = tz.cross.hereState ∧
      tz'.cross.currentHereTags = tz.cross.currentHereTags
  | .stop _ => True

variable {o : TokenizerOptions} {call : Call} {tz : Tokenizer} {c : Char}

variable {tz' : Tokenizer}

theorem roundFlag_same (hsettled : tz.cross.Settled)
    (hflag : tz'.cross.arithmeticExpansion = tz.cross.arithmeticExpansion)
    (hstate : tz'.cross.hereState = tz.cross.hereState)
    (htags : tz'.cross.currentHereTags = tz.cross.currentHereTags) :
    RoundFlag tz.cross.arithmeticExpansion false tz tz' where
  flag := hflag
  settled := by
    unfold CrossTokenParseState.Settled
    rw [hstate]
    exact hsettled
  opens := nofun
  calm _ ha := by
    refine ⟨?_, by rw [htags]⟩
    unfold CrossTokenParseState.awaitsTag at ha ⊢
    rw [hstate]
    exact ha

theorem RoundFlag.advance {flag opens : Bool} (h : RoundFlag flag opens tz tz')
    (n : Nat) : RoundFlag flag opens tz (tz'.advance n) :=
  ⟨h.flag, h.settled, h.opens, fun hf ha => ⟨(h.calm hf ha).awaits, (h.calm hf ha).tags⟩⟩

theorem roundGuarded_ofDelimited {reason : TokenEndReason}
    (hsettled : tz.cross.Settled) (p : SourcePosition) :
    RoundGuarded tz.cross.arithmeticExpansion false tz
      (.ofDelimited tz' (st.delimitCurrentToken reason { tz.cross with cursor := p })) := by
  cases hd : st.delimitCurrentToken reason { tz.cross with cursor := p } with
  | error s => trivial
  | ok d =>
    obtain ⟨r, st', cross'⟩ := d
    obtain ⟨hflag, hsettles, -, hcalm⟩ := delimit_flag hd
    have hround : ∀ tz', tz'.cross = cross' →
        RoundFlag tz.cross.arithmeticExpansion false tz tz' := by
      rintro tz' rfl
      exact ⟨hflag, hsettles (.inl hsettled), nofun,
        fun _ ha => ⟨(hcalm ha).awaits, (hcalm ha).tags⟩⟩
    cases r with
    | none => exact hround _ rfl
    | some r => exact hround _ rfl

theorem roundGuarded_ofRemoved {nl : Bool} {d : Delimited}
    (hsettled : tz.cross.Settled) (p : SourcePosition)
    (h : st.removeHereEndTag nl { tz.cross with cursor := p } = .ok (some d)) :
    RoundGuarded tz.cross.arithmeticExpansion false tz (.ofDelimited tz' (.ok d)) := by
  obtain ⟨body, hd⟩ := removeHereEndTag_some h
  rw [← hd]
  exact roundGuarded_ofDelimited hsettled p

theorem endsAt_of_word (h : call.state.tokenIsOperator = false) (op : List Char) (c : Char) :
    call.endsAt o tz op c = false := by
  unfold Call.endsAt isSpecificOperator
  rw [h]
  simp

theorem flagAfter_of_not (h : ∀ op c, call.endsAt o tz op c = false) :
    flagAfter o call tz = tz.cross.arithmeticExpansion := by
  unfold flagAfter
  rw [h, h]
  cases tz.cross.arithmeticExpansion <;> rfl

theorem hereDocRound_guarded (hsettled : tz.cross.Settled) (st : TokenParseState) :
    RoundGuarded tz.cross.arithmeticExpansion false tz (hereDocRound st tz c) := by
  have hsame : RoundFlag tz.cross.arithmeticExpansion false tz (tz.advance 1) :=
    roundFlag_same hsettled rfl rfl rfl
  unfold hereDocRound
  dsimp only
  split_ifs
  · exact hsame
  · cases hr : (st.append [c]).removeHereEndTag true (tz.advance 1).cross with
    | error s => trivial
    | ok d =>
      cases d with
      | none => exact hsame
      | some d => exact roundGuarded_ofRemoved hsettled _ hr
  · exact hsame

theorem blankRound_guarded (hsettled : tz.cross.Settled) :
    RoundGuarded tz.cross.arithmeticExpansion false tz (blankRound call tz c) := by
  have hsame : RoundFlag tz.cross.arithmeticExpansion false tz (tz.advance 1) :=
    roundFlag_same hsettled rfl rfl rfl
  unfold blankRound
  dsimp only
  split_ifs
  · have hround : RoundGuarded tz.cross.arithmeticExpansion false tz
        (.ofDelimited tz (call.state.delimitCurrentToken .nonNewLineBlank tz.cross)) :=
      roundGuarded_ofDelimited hsettled tz.cross.cursor
    split
    next he =>
      rw [he] at hround
      exact hround.advance 1
    next he =>
      rw [he] at hround
      exact hround.advance 1
    next => exact hround
  · exact hsame
  · exact hsame

/-- Where an operator is under way, and the call does not end. -/
structure InOperator (call : Call) (tz : Tokenizer) (c : Char) : Prop where
  chars : tz.chars.head? = some c
  queue : tz.cross.queuedTokens = []
  here : tz.cross.hereState ≠ .inHereDocs
  term : ¬ (call.state.unquoted = true ∧ call.terminatingChar = some c)
  isOperator : call.state.tokenIsOperator = true

theorem InOperator.endsAt_iff (h : InOperator call tz c) (op : List Char) (d : Char) :
    call.endsAt o tz op d = true ↔ d = c ∧ call.state.tokenSoFar = op ∧
      ¬ (call.state.unquoted = true ∧ Parser.isOperator o (op ++ [c]) = true) := by
  have hterm := h.term
  have hhere := h.here
  unfold Call.endsAt isSpecificOperator
  rw [h.queue, h.chars, h.isOperator]
  constructor
  · intro hd
    simp only [List.isEmpty_nil, Bool.true_and, Bool.and_eq_true, beq_iff_eq, Option.some.injEq,
      bne_iff_ne, ne_eq, Bool.not_eq_true'] at hd
    obtain ⟨⟨⟨⟨rfl, -⟩, -⟩, htoken⟩, hno⟩ := hd
    exact ⟨rfl, htoken, by simpa using hno⟩
  · rintro ⟨rfl, htoken, hno⟩
    simp only [List.isEmpty_nil, Bool.true_and, Bool.and_eq_true, beq_iff_eq, bne_iff_ne, ne_eq,
      Bool.not_eq_true']
    exact ⟨⟨⟨⟨trivial, hhere⟩, by simpa using hterm⟩, htoken⟩, by simpa using hno⟩

theorem isOperator_paren (o : TokenizerOptions) (c : Char) :
    isOperator o ['(', c] = false ∧ isOperator o [')', c] = false := by
  constructor <;> simp [isOperator]

theorem InOperator.ends_flag (h : InOperator call tz c) :
    (operatorEnds call.state tz c).cross.arithmeticExpansion = flagAfter o call tz ∧
      (tz.cross.arithmeticExpansion = true ∨ call.endsAt o tz ['('] '(' = true →
        (operatorEnds call.state tz c).cross.hereState = tz.cross.hereState) ∧
      (operatorEnds call.state tz c).cross.currentHereTags = tz.cross.currentHereTags := by
  have hopen := h.endsAt_iff (o := o) ['('] '('
  have hclose := h.endsAt_iff (o := o) [')'] ')'
  have hspecific : ∀ op, call.state.isSpecificOperator op = true ↔ call.state.tokenSoFar = op := by
    intro op
    rw [isSpecificOperator, h.isOperator, Bool.true_and, beq_iff_eq]
  rw [List.singleton_append, (isOperator_paren o c).1] at hopen
  rw [List.singleton_append, (isOperator_paren o c).2] at hclose
  unfold operatorEnds flagAfter
  cases hflag : tz.cross.arithmeticExpansion with
  | true =>
    rw [if_pos rfl, if_pos rfl]
    by_cases hc : call.state.isSpecificOperator [')'] = true ∧ c = ')'
    · rw [if_pos hc, hclose.2 ⟨hc.2.symm, (hspecific _).1 hc.1, by simp⟩]
      exact ⟨rfl, fun _ => rfl, rfl⟩
    · rw [if_neg hc, Bool.eq_false_iff.2 fun he => hc ⟨(hspecific _).2 (hclose.1 he).2.1,
        (hclose.1 he).1.symm⟩]
      exact ⟨hflag, fun _ => rfl, rfl⟩
  | false =>
    rw [if_neg Bool.false_ne_true, if_neg Bool.false_ne_true]
    by_cases hc : call.state.isSpecificOperator ['('] = true ∧ c = '('
    · have htoken := (hspecific _).1 hc.1
      rw [if_neg (by rw [hspecific, htoken]; decide), if_neg (by rw [hspecific, htoken]; decide),
        if_pos hc, hopen.2 ⟨hc.2.symm, htoken, by simp⟩]
      exact ⟨rfl, fun _ => rfl, rfl⟩
    · rw [if_neg hc, Bool.eq_false_iff.2 fun he => hc ⟨(hspecific _).2 (hopen.1 he).2.1,
        (hopen.1 he).1.symm⟩]
      split_ifs
      · exact ⟨hflag, fun hb => by simp at hb, rfl⟩
      · exact ⟨hflag, fun hb => by simp at hb, rfl⟩
      · exact ⟨hflag, fun hb => by simp at hb, rfl⟩

theorem InOperator.round_guarded (h : InOperator call tz c) (hsettled : tz.cross.Settled) :
    RoundGuarded (flagAfter o call tz) (call.endsAt o tz ['('] '(') tz
      (operatorRound o call.state tz c) := by
  unfold operatorRound
  by_cases hcont : call.state.unquoted = true ∧
      Parser.isOperator o (call.state.tokenSoFar ++ [c]) = true
  · rw [if_pos hcont]
    have hends : ∀ op d, call.endsAt o tz op d = false := fun op d =>
      Bool.eq_false_iff.2 fun he => by
        obtain ⟨-, htoken, hno⟩ := (h.endsAt_iff op d).1 he
        exact hno (htoken ▸ hcont)
    rw [flagAfter_of_not hends, hends]
    exact (roundFlag_same hsettled rfl rfl rfl).advance 1
  rw [if_neg hcont]
  by_cases hstarted : call.state.startedToken = false
  · rw [if_pos hstarted]
    trivial
  rw [if_neg hstarted]
  dsimp only
  have hstarted : call.state.startedToken = true := by simpa using hstarted
  obtain ⟨hflag, hstate, htags⟩ := h.ends_flag (o := o)
  cases hd : call.state.delimitCurrentToken
      (if call.state.isNewline then .unescapedNewLine else .operatorEnd)
      (operatorEnds call.state tz c).cross with
  | error s => trivial
  | ok d =>
    obtain ⟨r, st', cross'⟩ := d
    obtain ⟨hflag', hsettles, hawaits, hcalm⟩ := delimit_flag hd
    have hround : ∀ tz', tz'.cross = cross' →
        RoundFlag (flagAfter o call tz) (call.endsAt o tz ['('] '(') tz tz' := by
      rintro tz' rfl
      refine ⟨hflag'.trans hflag, hsettles (.inr hstarted), fun hopen => ?_, fun hf ha => ?_⟩
      · refine hawaits ?_ hstarted
        unfold CrossTokenParseState.Settled
        rw [hstate (.inr hopen)]
        exact hsettled
      · have hcalm := hcalm (by
          unfold CrossTokenParseState.awaitsTag at ha ⊢
          rw [hstate (.inl hf)]
          exact ha)
        exact ⟨hcalm.awaits, htags ▸ hcalm.tags⟩
    cases r with
    | none => exact hround _ rfl
    | some r => exact hround _ rfl

/-- **Rounds.** What a round on a character does to the flag and the tags. -/
theorem charRound_guarded {rest : List Char} (hchars : tz.chars = c :: rest)
    (hqueue : tz.cross.queuedTokens = []) (hsettled : tz.cross.Settled) :
    RoundGuarded (flagAfter o call tz) (call.endsAt o tz ['('] '(') tz
      (charRound o call tz c) := by
  have hhead : ∀ {op d}, call.endsAt o tz op d = true → d = c := by
    intro op d h
    unfold Call.endsAt at h
    rw [hchars] at h
    simp only [List.head?_cons, Bool.and_eq_true, beq_iff_eq, Option.some.injEq] at h
    exact h.1.1.1.1.2.symm
  have hsame : ∀ {tz'}, tz'.cross.arithmeticExpansion = tz.cross.arithmeticExpansion →
      tz'.cross.hereState = tz.cross.hereState →
      tz'.cross.currentHereTags = tz.cross.currentHereTags →
        RoundFlag tz.cross.arithmeticExpansion false tz tz' := roundFlag_same hsettled
  by_cases hin : tz.cross.hereState = .inHereDocs
  · have hends : ∀ op d, call.endsAt o tz op d = false := fun op d => by
      unfold Call.endsAt
      rw [hin]
      simp
    rw [flagAfter_of_not hends, hends, charRound, if_pos hin]
    exact hereDocRound_guarded hsettled _
  by_cases hterm : call.state.unquoted = true ∧ call.terminatingChar = some c
  · have hends : ∀ op d, call.endsAt o tz op d = false := fun op d =>
      Bool.eq_false_iff.2 fun he => by
        obtain rfl := hhead he
        unfold Call.endsAt at he
        rw [hterm.1, hterm.2] at he
        simp at he
    rw [flagAfter_of_not hends, hends, charRound, if_neg hin, if_pos hterm]
    exact roundGuarded_ofDelimited hsettled tz.cross.cursor
  by_cases hop : call.state.tokenIsOperator = true
  · rw [charRound, if_neg hin, if_neg hterm, if_pos hop]
    exact InOperator.round_guarded ⟨by rw [hchars]; rfl, hqueue, hin, hterm, hop⟩ hsettled
  have hends : ∀ op c, call.endsAt o tz op c = false :=
    endsAt_of_word (Bool.eq_false_iff.2 hop)
  rw [flagAfter_of_not hends, hends]
  apply charRound_cases (P := RoundGuarded tz.cross.arithmeticExpansion false tz)
  case hereDoc => exact fun h => absurd h hin
  case terminating => exact fun h₁ h₂ => absurd ⟨h₁, h₂⟩ hterm
  case operator => exact fun h => absurd h hop
  case quoting =>
    intro _ _
    unfold quotingRound
    split_ifs <;> exact hsame rfl rfl rfl
  case closing => exact fun _ _ => hsame rfl rfl rfl
  case escaped => exact fun _ _ => hsame rfl rfl rfl
  case dollar =>
    intro _ _
    unfold dollarRound
    split
    · exact ⟨rfl, rfl, rfl, rfl, rfl⟩
    · exact ⟨rfl, rfl, rfl, rfl, rfl⟩
    · exact ⟨rfl, rfl, rfl, rfl, rfl⟩
    · exact ⟨rfl, rfl, rfl, rfl, rfl⟩
    · exact hsame rfl rfl rfl
  case backquote =>
    intro _ _
    unfold backquoteRound
    split
    · trivial
    · exact hsame rfl rfl rfl
  case extglob =>
    intro _ _
    unfold extglobRound
    split
    · trivial
    · exact hsame rfl rfl rfl
  case operatorStart => exact fun _ _ => roundGuarded_ofDelimited hsettled tz.cross.cursor
  case operatorChar => exact fun _ _ _ => hsame rfl rfl rfl
  case blank => exact fun _ _ _ _ => blankRound_guarded hsettled
  case comment => exact fun _ _ _ => hsame rfl rfl rfl
  case word => exact fun _ _ _ => hsame rfl rfl rfl

theorem endOfInputRound_guarded (hsettled : tz.cross.Settled) (st : TokenParseState) :
    RoundGuarded tz.cross.arithmeticExpansion false tz (endOfInputRound st tz) := by
  unfold endOfInputRound
  by_cases hesc : st.inEscape = true
  · rw [if_pos hesc]
    trivial
  rw [if_neg hesc]
  cases st.quoteMode with
  | ansiC p => trivial
  | single p => trivial
  | double p => trivial
  | none =>
    dsimp only
    by_cases hnone : tz.cross.hereState = .none
    · rw [if_pos hnone]
      exact roundGuarded_ofDelimited hsettled tz.cross.cursor
    rw [if_neg hnone]
    cases hr : st.removeHereEndTag false tz.cross with
    | error s => trivial
    | ok d =>
      cases d with
      | none => trivial
      | some d => exact roundGuarded_ofRemoved hsettled tz.cross.cursor hr

/-- **Rounds.** Also where a token is queued, or nothing left. -/
theorem nextTokenRound_guarded (hsettled : tz.cross.Settled) :
    RoundGuarded (flagAfter o call tz) (call.endsAt o tz ['('] '(') tz
      (nextTokenRound o call tz) := by
  cases hqueue : tz.cross.queuedTokens with
  | cons r queue =>
    have hends : ∀ op d, call.endsAt o tz op d = false := fun op d => by
      unfold Call.endsAt
      rw [hqueue]
      rfl
    rw [nextTokenRound, hqueue, flagAfter_of_not hends, hends]
    exact roundFlag_same hsettled rfl rfl rfl
  | nil =>
    cases hchars : tz.chars with
    | cons c rest =>
      rw [nextTokenRound, hqueue, hchars]
      exact charRound_guarded hchars hqueue hsettled
    | nil =>
      have hends : ∀ op d, call.endsAt o tz op d = false := fun op d => by
        unfold Call.endsAt
        rw [hchars]
        simp
      rw [nextTokenRound, hqueue, hchars, flagAfter_of_not hends, hends]
      exact endOfInputRound_guarded hsettled _

/-! ## Constructs -/

/-- What a construct that takes a token does to the flag. -/
def TakenFlag (l : ConstructLoop) (tz : Tokenizer) : Taken → Prop
  | .more l' _ tz' => l'.construct.isArithmetic = l.construct.isArithmetic ∧
      tz'.cross.arithmeticExpansion = tz.cross.arithmeticExpansion ∧
      tz'.cross.hereState = tz.cross.hereState ∧
      tz'.cross.currentHereTags = tz.cross.currentHereTags
  | .ended _ tz' => tz'.cross.arithmeticExpansion =
        (!l.construct.isArithmetic && tz.cross.arithmeticExpansion) ∧
      tz'.cross.hereState = tz.cross.hereState ∧
      tz'.cross.currentHereTags = tz.cross.currentHereTags
  | .stop _ => True

theorem consumeNext_cross {st' : TokenParseState} {tz : Tokenizer}
    (h : consumeNext st tz = .ok (st', tz')) : tz' = tz.advance 1 := by
  unfold consumeNext at h
  split at h
  · cases h
  · cases h
    rfl

theorem terminate_flag (l : ConstructLoop) (st : TokenParseState) (tz : Tokenizer) :
    TakenFlag l tz (terminate l st tz) := by
  obtain ⟨construct, pending, drain⟩ := l
  unfold terminate
  cases construct with
  | brace =>
    dsimp only
    split
    · trivial
    · rename_i h
      obtain rfl := consumeNext_cross h
      exact ⟨rfl, rfl, rfl⟩
  | nested t nestingOpen count isArithmetic =>
    dsimp only
    by_cases hzero : count = 0
    · rw [if_pos hzero]
      trivial
    rw [if_neg hzero]
    cases h : consumeNext st tz with
    | error s => trivial
    | ok d =>
      obtain ⟨st', tz'⟩ := d
      obtain rfl := consumeNext_cross h
      dsimp only
      split_ifs with hone harith
      · rw [harith]
        exact ⟨rfl, rfl, rfl⟩
      · rw [Bool.eq_false_iff.2 harith]
        exact ⟨rfl, rfl, rfl⟩
      · exact ⟨rfl, rfl, rfl, rfl⟩

theorem takeToken_flag (l : ConstructLoop) (r : TokenizeResult) (st : TokenParseState)
    (tz : Tokenizer) : TakenFlag l tz (takeToken l r st tz) := by
  unfold takeToken
  split_ifs
  · exact ⟨rfl, rfl, rfl, rfl⟩
  cases hcount : countOpen l r with
  | error s => trivial
  | ok l' =>
    have harith : l'.construct.isArithmetic = l.construct.isArithmetic := by
      unfold countOpen at hcount
      split at hcount
      · cases hcount
        rfl
      · rename_i hl
        split_ifs at hcount <;> cases hcount
        · rw [hl]
          rfl
        · rfl
    dsimp only
    split
    · exact ⟨harith, rfl, rfl, rfl⟩
    · exact ⟨harith, rfl, rfl, rfl⟩
    · have hterm := terminate_flag l' (st.append r.text) tz
      cases ht : terminate l' (st.append r.text) tz with
      | more l'' st' tz' =>
        rw [ht] at hterm
        exact ⟨hterm.1.trans harith, hterm.2⟩
      | ended st' tz' =>
        rw [ht] at hterm
        exact ⟨harith ▸ hterm.1, hterm.2⟩
      | stop s => trivial
    · trivial
    · exact ⟨harith, rfl, rfl, rfl⟩

/-! ## Steps -/

def profile (m : Machine) : List Bool := m.outer.map fun e => e.1.construct.isArithmetic

theorem inConstruct_eq (m : Machine) : m.inConstruct = (profile m).any id := by
  unfold Machine.inConstruct profile
  rw [List.any_map]
  rfl

/-- What a step does. -/
inductive StepFlag (o : TokenizerOptions) (m m' : Machine) : Prop
  /-- The constructs stay as they are; an operator may end. -/
  | stays (profile : profile m' = profile m)
    (flag : m'.tz.cross.arithmeticExpansion =
      if m.tz.cross.arithmeticExpansion then !m.endsAt o [')'] ')' else m.endsAt o ['('] '(')
    (round : RoundFlag m'.tz.cross.arithmeticExpansion (m.endsAt o ['('] '(') m.tz m'.tz)
  /-- A construct is entered. -/
  | enters (k : Bool) (profile : profile m' = k :: profile m)
    (opens : m.endsAt o ['('] '(' = false)
    (closes : m.tz.cross.arithmeticExpansion = true → m.endsAt o [')'] ')' = false)
    (flag : m'.tz.cross.arithmeticExpansion = (k || m.tz.cross.arithmeticExpansion))
    (here : m'.tz.cross.hereState = m.tz.cross.hereState)
    (tags : m'.tz.cross.currentHereTags = m.tz.cross.currentHereTags)
  /-- A construct is closed. -/
  | ends (k : Bool) (profile : profile m = k :: profile m')
    (endsAt : ∀ op c, m.endsAt o op c = false)
    (flag : m'.tz.cross.arithmeticExpansion = (!k && m.tz.cross.arithmeticExpansion))
    (here : m'.tz.cross.hereState = m.tz.cross.hereState)
    (tags : m'.tz.cross.currentHereTags = m.tz.cross.currentHereTags)

variable {m m' : Machine}

theorem endsAt_of_result (hcall : ∀ call, m.mode ≠ .call call) (op : List Char) (c : Char) :
    m.endsAt o op c = false := by
  unfold Machine.endsAt
  split
  · rename_i call hmode
    exact absurd hmode (hcall call)
  · rfl

theorem afterTaken_flag {l₀ l : ConstructLoop} {call₀ : Call}
    {outer : List (ConstructLoop × Call)} {taken : Taken} (hsettled : m.tz.cross.Settled)
    (houter : m.outer = (l₀, call₀) :: outer)
    (hl : l.construct.isArithmetic = l₀.construct.isArithmetic)
    (hcall : ∀ call, m.mode ≠ .call call) (htaken : TakenFlag l m.tz taken)
    (h : m.afterTaken call₀ outer taken = .next m') : StepFlag o m m' := by
  have hends : ∀ op c, m.endsAt o op c = false := endsAt_of_result hcall
  have hprofile : profile m = l.construct.isArithmetic ::
      outer.map fun e => e.1.construct.isArithmetic := by
    unfold profile
    rw [houter, hl]
    rfl
  cases taken with
  | more l' st tz' =>
    cases h
    obtain ⟨harith, hflag, hstate, htags⟩ := htaken
    refine .stays ?_ ?_ ?_
    · rw [hprofile, ← harith]
      rfl
    · rw [hends, hends]
      dsimp only
      rw [hflag]
      cases m.tz.cross.arithmeticExpansion <;> rfl
    · rw [hends]
      dsimp only
      rw [hflag]
      exact roundFlag_same hsettled hflag hstate htags
  | ended st tz' =>
    cases h
    exact .ends _ hprofile hends htaken.1 htaken.2.1 htaken.2.2
  | stop s => cases h

theorem stepFlag_same (hsettled : m.tz.cross.Settled) (hcall : ∀ call, m.mode ≠ .call call)
    (hprofile : profile m' = profile m) (htz : m'.tz = m.tz) : StepFlag o m m' := by
  have hends : ∀ op c, m.endsAt o op c = false := endsAt_of_result hcall
  refine .stays hprofile ?_ ?_
  · rw [hends, hends, htz]
    cases m.tz.cross.arithmeticExpansion <;> rfl
  · rw [hends, htz]
    exact roundFlag_same hsettled rfl rfl rfl

/-- **Step lemma.** -/
theorem step_flag (hsettled : m.tz.cross.Settled) (h : m.step o = .next m') : StepFlag o m m' := by
  unfold step at h
  cases hmode : m.mode with
  | call call =>
    rw [hmode] at h
    dsimp only at h
    have hends : ∀ op c, m.endsAt o op c = call.endsAt o m.tz op c := by
      intro op c
      rw [Machine.endsAt, hmode]
    have hround := @nextTokenRound_guarded o call _ hsettled
    unfold stepCall at h
    cases hr : nextTokenRound o call m.tz with
    | more st tz' =>
      rw [hr] at h hround
      cases h
      refine .stays rfl ?_ ?_
      · rw [hends, hends]
        exact hround.flag
      · rw [hends]
        dsimp only
        rw [hround.flag]
        exact hround
    | done r tz' =>
      rw [hr] at h hround
      cases h
      refine .stays rfl ?_ ?_
      · rw [hends, hends]
        exact hround.flag
      · rw [hends]
        dsimp only
        rw [hround.flag]
        exact hround
    | enter k st tz' =>
      rw [hr] at h hround
      cases h
      obtain ⟨hafter, hopens, hflag, hstate, htags⟩ := hround
      refine .enters k.isArithmetic rfl (by rw [hends, hopens]) (fun hf => ?_) hflag hstate htags
      unfold flagAfter at hafter
      rw [hf, if_pos rfl] at hafter
      rw [hends]
      simpa using hafter
    | stop s =>
      rw [hr] at h
      cases h
  | loop =>
    rw [hmode] at h
    dsimp only at h
    have hcall : ∀ call, m.mode ≠ .call call := by
      rw [hmode]
      exact fun _ => nofun
    unfold stepLoop at h
    split at h
    · cases h
      exact stepFlag_same hsettled hcall rfl rfl
    · rename_i l call outer houter
      split at h
      · refine afterTaken_flag hsettled houter ?_ hcall (takeToken_flag _ _ _ _) h
        rfl
      · cases h
        exact stepFlag_same hsettled hcall rfl rfl
  | result r =>
    rw [hmode] at h
    dsimp only at h
    have hcall : ∀ call, m.mode ≠ .call call := by
      rw [hmode]
      exact fun _ => nofun
    unfold stepResult at h
    split at h
    · split at h
      · cases h
        exact stepFlag_same hsettled hcall rfl rfl
      · split_ifs at h
        cases h
        exact stepFlag_same hsettled hcall rfl rfl
    · rename_i l call outer houter
      split_ifs at h
      · cases h
        refine stepFlag_same hsettled hcall ?_ rfl
        unfold profile
        rw [houter]
        rfl
      · exact afterTaken_flag hsettled houter rfl hcall (takeToken_flag _ _ _ _) h

/-! ## Runs -/

/-- What holds in every state of a run whose steps are `Outermost`. -/
structure InStep (m : Machine) (g : Option ArithmeticCommand) : Prop where
  flag : m.tz.cross.arithmeticExpansion = m.inArithmetic g
  settled : m.tz.cross.Settled
  awaits : m.inArithmetic g = true → m.tz.cross.awaitsTag = false

theorem inStep_init (input : List Char) : InStep (init input) none :=
  ⟨rfl, fun _ => nofun, nofun⟩

variable {g : Option ArithmeticCommand}

theorem profile_length (m : Machine) : (profile m).length = m.outer.length :=
  List.length_map _

theorem inConstruct_of_profile (h : profile m' = profile m) : m'.inConstruct = m.inConstruct := by
  rw [inConstruct_eq, inConstruct_eq, h]

theorem inConstruct_cons {k : Bool} (h : profile m' = k :: profile m) :
    m'.inConstruct = (k || m.inConstruct) := by
  rw [inConstruct_eq, inConstruct_eq, h]
  rfl

variable {op : List Char}

theorem hasRead_of_endsAt {c : Char} (h : m.endsAt o op c = true) :
    m.hasRead op = true ∧ m.tz.chars.head? = some c := by
  unfold Machine.endsAt at h
  unfold Machine.hasRead
  split at h
  · unfold Call.endsAt at h
    simp only [Bool.and_eq_true, beq_iff_eq] at h
    exact ⟨h.1.2, h.1.1.1.1.2⟩
  · cases h

theorem hasRead_unique {op' : List Char} (h : m.hasRead op = true) (hne : op ≠ op') :
    m.hasRead op' = false := by
  unfold Machine.hasRead at h ⊢
  split at h
  · unfold isSpecificOperator at h ⊢
    simp only [Bool.and_eq_true, beq_iff_eq] at h
    simp [h.2, hne]
  · cases h

theorem after_pair {g : ArithmeticCommand} (hends : m.endsAt o [')'] ')' = true)
    (hlevel : g.level = m.outer.length) (hparens : g.parens ≤ 2)
    (hlength : m'.outer.length = m.outer.length) : g.after m m' = none := by
  obtain ⟨hread, hhead⟩ := hasRead_of_endsAt hends
  unfold ArithmeticCommand.after
  rw [if_neg (by omega), if_neg (by omega), if_neg (by
    rw [hasRead_unique hread (by decide)]
    exact nofun), if_pos hread]
  by_cases htwo : g.parens = 2
  · rw [if_pos ⟨htwo, hhead⟩]
  · rw [if_neg fun h => htwo h.1, ArithmeticCommand.close, if_pos (by omega)]

/-- **Step lemma.** -/
theorem InStep.next (h : InStep m g) (hstep : m.step o = .next m') (hout : Outermost o m m' g) :
    InStep m' (ArithmeticCommand.next o m m' g) := by
  -- a command that is under way goes on, but for `))`
  have hgoes : ∀ c, g = some c → m.endsAt o [')'] ')' = false →
      (ArithmeticCommand.next o m m' g).isSome = true := by
    intro c hc hends
    rw [Option.isSome_iff_ne_none]
    intro hnone
    rw [hout.command (by rw [hc]; rfl) hnone] at hends
    cases hends
  have hflag := h.flag
  cases step_flag h.settled hstep with
  | stays hprofile hafter hround =>
    have hconstruct := inConstruct_of_profile hprofile
    have hlength : m'.outer.length = m.outer.length := by
      rw [← profile_length, ← profile_length, hprofile]
    cases hin : m.inArithmetic g with
    | true =>
      rw [hflag, hin, if_pos rfl] at hafter
      have hcalm := hround.calm (hflag.trans hin) (h.awaits hin)
      refine ⟨?_, hround.settled, fun _ => hcalm.awaits⟩
      rw [hafter]
      cases hends : m.endsAt o [')'] ')' with
      | true =>
        obtain ⟨hno, hg⟩ := hout.pair hends hin
        obtain ⟨c, rfl, hc⟩ := (Option.any_eq_true _ _).1 hg
        simp only [Bool.and_eq_true, beq_iff_eq, decide_eq_true_eq] at hc
        rw [Machine.inArithmetic, hconstruct, hno, ArithmeticCommand.next,
          after_pair hends hc.1 hc.2 hlength]
        rfl
      | false =>
        cases hg : g with
        | some c =>
          have hsome := hgoes c hg hends
          rw [hg] at hsome
          rw [Machine.inArithmetic, hsome]
          rfl
        | none =>
          rw [hg, Machine.inArithmetic, Option.isSome_none, Bool.false_or] at hin
          rw [Machine.inArithmetic, hconstruct, hin, Bool.or_true]
          rfl
    | false =>
      obtain ⟨hg, hno⟩ : g = none ∧ m.inConstruct = false := by
        simpa [Machine.inArithmetic] using hin
      subst hg
      rw [hflag, hin, if_neg Bool.false_ne_true] at hafter
      have hin' : m'.inArithmetic (ArithmeticCommand.next o m m' none) =
          m.endsAt o ['('] '(' := by
        rw [Machine.inArithmetic, hconstruct, hno, Bool.or_false, ArithmeticCommand.next]
        cases hopens : m.endsAt o ['('] '(' with
        | true =>
          rw [if_pos ⟨hno, rfl⟩]
          rfl
        | false =>
          rw [if_neg fun h => nomatch h.2]
          rfl
      exact ⟨hafter.trans hin'.symm, hround.settled, fun hi => hround.opens (hin'.symm.trans hi)⟩
  | enters k hprofile hopens hcloses hafter hstate htags =>
    have hconstruct := inConstruct_cons hprofile
    have hlength : m'.outer.length = m.outer.length + 1 := by
      rw [← profile_length, ← profile_length, hprofile]
      rfl
    have hawaits : m.tz.cross.awaitsTag = false → m'.tz.cross.awaitsTag = false := by
      unfold CrossTokenParseState.awaitsTag
      rw [hstate]
      exact id
    refine ⟨?_, fun b => by rw [hstate]; exact h.settled b, fun hin' => hawaits ?_⟩
    · cases hg : g with
      | none =>
        rw [hafter, hflag, hg, Machine.inArithmetic, Machine.inArithmetic, hconstruct,
          ArithmeticCommand.next, if_neg (by rw [hopens]; exact fun h => nomatch h.2)]
        rfl
      | some c =>
        have hin : m.inArithmetic g = true := by
          rw [hg]
          rfl
        have hsome := hgoes c hg (hcloses (hflag.trans hin))
        rw [hg] at hsome
        rw [hafter, hflag, hin, Bool.or_true, Machine.inArithmetic, hsome]
        rfl
    · by_cases hin : m.inArithmetic g = true
      · exact h.awaits hin
      · obtain ⟨hg, hno⟩ : g = none ∧ m.inConstruct = false := by
          simpa [Machine.inArithmetic] using hin
        subst hg
        rw [Machine.inArithmetic, hconstruct, hno, Bool.or_false, ArithmeticCommand.next,
          if_neg (by rw [hopens]; exact fun h => nomatch h.2)] at hin'
        refine hout.tag (by omega) ?_
        obtain rfl : k = true := hin'
        unfold profile at hprofile
        cases houter : m'.outer with
        | nil =>
          rw [houter] at hprofile
          cases hprofile
        | cons e outer =>
          rw [houter] at hprofile
          exact (List.cons.inj hprofile).1
  | ends k hprofile hends hafter hstate htags =>
    have hconstruct := inConstruct_cons hprofile
    have hlength : m.outer.length = m'.outer.length + 1 := by
      rw [← profile_length, ← profile_length, hprofile]
      rfl
    have hawaits : m.tz.cross.awaitsTag = false → m'.tz.cross.awaitsTag = false := by
      unfold CrossTokenParseState.awaitsTag
      rw [hstate]
      exact id
    -- an arithmetic construct that is closed is the outermost
    have houtermost : k = true → g = none ∧ m'.inConstruct = false := by
      rintro rfl
      cases houter : m.outer with
      | nil =>
        rw [profile, houter] at hprofile
        cases hprofile
      | cons e outer =>
        rw [profile, houter, List.map_cons] at hprofile
        obtain ⟨he, htail⟩ := List.cons.inj hprofile
        obtain ⟨hg, hno⟩ := hout.construct (by omega) (by rw [houter]; exact he)
        rw [houter] at hno
        refine ⟨hg, ?_⟩
        rw [inConstruct_eq, ← htail, List.any_map]
        exact hno
    have hin' : m'.inArithmetic (ArithmeticCommand.next o m m' g) =
        (!k && m.inArithmetic g) := by
      cases hg : g with
      | none =>
        rw [Machine.inArithmetic, Machine.inArithmetic, hconstruct, ArithmeticCommand.next,
          if_neg (by rw [hends]; exact fun h => nomatch h.2)]
        cases k with
        | true =>
          rw [(houtermost rfl).2]
          rfl
        | false => rfl
      | some c =>
        have hsome := hgoes c hg (hends _ _)
        rw [hg] at hsome
        cases k with
        | true =>
          rw [hg] at houtermost
          exact nomatch (houtermost rfl).1
        | false =>
          rw [Machine.inArithmetic, hsome]
          rfl
    refine ⟨by rw [hafter, hflag, hin'], fun b => by rw [hstate]; exact h.settled b,
      fun hi => hawaits (h.awaits ?_)⟩
    rw [hin'] at hi
    exact (Bool.and_eq_true _ _ ▸ hi).2

variable {input : List Char}

/-- **Run lemma.** -/
theorem Nests.inStep (h : Nests o input (Outermost o) m g) :
    InStep m g := by
  induction h with
  | init => exact inStep_init input
  | next _ hstep hout ih => exact ih.next hstep hout

theorem starts_of_endsAt {c : Char} (hop : op = ['<', '<'] ∨ op = ['<', '<', '-'])
    (hflag : m.tz.cross.arithmeticExpansion = false) (hends : m.endsAt o op c = true) :
    ∃ m', m.step o = .next m' ∧ m'.tz.cross.awaitsTag = true := by
  cases hmode : m.mode with
  | loop =>
    rw [Machine.endsAt, hmode] at hends
    cases hends
  | result r =>
    rw [Machine.endsAt, hmode] at hends
    cases hends
  | call call =>
    rw [Machine.endsAt, hmode] at hends
    have hends : call.endsAt o m.tz op c = true := hends
    have hends' := hends
    unfold Call.endsAt isSpecificOperator at hends'
    simp only [Bool.and_eq_true, beq_iff_eq, List.isEmpty_iff, bne_iff_ne, ne_eq,
      Bool.not_eq_true'] at hends'
    obtain ⟨⟨⟨⟨⟨hqueue, hhead⟩, hhere⟩, hterm⟩, hoperator, htoken⟩, hno⟩ := hends'
    have hin : InOperator call m.tz c := ⟨hhead, hqueue, hhere, by simpa using hterm, hoperator⟩
    have hstarted : call.state.startedToken = true := by
      rw [startedToken_iff, htoken]
      rcases hop with rfl | rfl <;> exact nofun
    obtain ⟨rest, hchars⟩ := List.head?_eq_some_iff.1 hhead
    obtain ⟨b, hoperatorEnds⟩ : ∃ b, operatorEnds call.state m.tz c =
        m.tz.setHereState (.nextTokenIsHereTag b) := by
      unfold operatorEnds isSpecificOperator
      rw [if_neg (by rw [hflag]; exact nofun), hoperator, htoken]
      rcases hop with rfl | rfl
      · exact ⟨false, if_pos rfl⟩
      · exact ⟨true, (if_neg (by decide)).trans (if_pos rfl)⟩
    have hround : nextTokenRound o call m.tz = operatorRound o call.state m.tz c := by
      rw [nextTokenRound, hqueue, hchars]
      dsimp only
      rw [charRound, if_neg hhere, if_neg hin.term, if_pos hoperator]
    have hdelimit : ∀ reason, call.state.delimitCurrentToken reason
        (m.tz.setHereState (.nextTokenIsHereTag b)).cross =
          .ok (none, new m.tz.cross.cursor, { m.tz.cross with
            hereState := .currentTokenIsHereTag b
              ⟨reason, some (call.state.pop m.tz.cross.cursor)⟩ }) := by
      intro reason
      unfold delimitCurrentToken
      rw [if_neg fun h => by rw [hstarted] at h; cases h.1]
      rfl
    have hnext : ∃ st tz', nextTokenRound o call m.tz = .more st tz' ∧
        tz'.cross.awaitsTag = true := by
      rw [hround, operatorRound, if_neg (by simpa [htoken] using hno),
        if_neg (by rw [hstarted]; exact nofun), hoperatorEnds]
      dsimp only
      rw [hdelimit]
      exact ⟨_, _, rfl, rfl⟩
    obtain ⟨st, tz', hmore, hawaits⟩ := hnext
    refine ⟨{ m with tz := tz', mode := .call { call with state := st } }, ?_, hawaits⟩
    rw [step, hmode]
    dsimp only
    rw [stepCall, hmore]

theorem InStep.guards (h : InStep m g) : Guarded o m g where
  inside hin m' hstep := by
    have hawaits := h.awaits hin
    cases step_flag h.settled hstep with
    | stays _ _ hround =>
      have hcalm := hround.calm (h.flag.trans hin) hawaits
      exact ⟨hcalm.awaits, hcalm.tags⟩
    | enters _ _ _ _ _ hstate htags =>
      unfold CrossTokenParseState.awaitsTag at hawaits ⊢
      rw [hstate, htags]
      exact ⟨hawaits, le_rfl⟩
    | ends _ _ _ _ hstate htags =>
      unfold CrossTokenParseState.awaitsTag at hawaits ⊢
      rw [hstate, htags]
      exact ⟨hawaits, le_rfl⟩
  outside hout op c hop hends := starts_of_endsAt hop (h.flag.trans hout) hends

/-- **Here-documents and arithmetic.** In every state of a run that closes arithmetic constructs
only from the outside, no here-document is started inside of one, and outside of them each is. -/
theorem Nests.guarded {input : List Char} (h : Nests o input (Outermost o) m g) :
    Guarded o m g := h.inStep.guards

/-! ## Runs on inputs -/

theorem outermost_iff : Outermost o m m' g ↔
    (m'.outer.length < m.outer.length →
      (m.outer.head?.any fun e => e.1.construct.isArithmetic) = true →
        g = none ∧ (m.outer.tail.any fun e => e.1.construct.isArithmetic) = false) ∧
    (m.endsAt o [')'] ')' = true → m.inArithmetic g = true →
      m.inConstruct = false ∧ g.any fun g => g.level == m.outer.length && g.parens ≤ 2) ∧
    (g.isSome = true → ArithmeticCommand.next o m m' g = none →
      m.endsAt o [')'] ')' = true) ∧
    (m.outer.length < m'.outer.length →
      (m'.outer.head?.any fun e => e.1.construct.isArithmetic) = true →
        m.tz.cross.awaitsTag = false) :=
  ⟨fun h => ⟨h.construct, h.pair, h.command, h.tag⟩, fun h => ⟨h.1, h.2.1, h.2.2.1, h.2.2.2⟩⟩

instance : Decidable (Outermost o m m' g) := decidable_of_iff _ outermost_iff.symm

/-- The state of a run after so many steps that meet a condition. -/
def follow (o : TokenizerOptions) (P : Machine → Machine → Option ArithmeticCommand → Prop)
    [∀ m m' g, Decidable (P m m' g)] :
    Nat → Machine → Option ArithmeticCommand → Option (Machine × Option ArithmeticCommand)
  | 0, m, g => some (m, g)
  | n + 1, m, g =>
    match m.step o with
    | .next m' => if P m m' g then follow o P n m' (ArithmeticCommand.next o m m' g) else none
    | _ => none

theorem nests_of_follow {P : Machine → Machine → Option ArithmeticCommand → Prop}
    [∀ m m' g, Decidable (P m m' g)] {m₀ : Machine}
    {g₀ : Option ArithmeticCommand} (h₀ : Nests o input P m₀ g₀) {n : Nat}
    (h : follow o P n m₀ g₀ = some (m, g)) : Nests o input P m g := by
  induction n generalizing m₀ g₀ with
  | zero =>
    cases h
    exact h₀
  | succ n ih =>
    unfold follow at h
    split at h
    · rename_i hstep
      split_ifs at h with hP
      exact ih (h₀.next hstep hP) h
    · cases h

theorem exists_nests {P : Machine → Machine → Option ArithmeticCommand → Prop}
    [∀ m m' g, Decidable (P m m' g)]
    {Q : Machine → Option ArithmeticCommand → Bool} (n : Nat)
    (h : ((follow o P n (.init input) none).any fun s => Q s.1 s.2) = true) :
    ∃ m g, Nests o input P m g ∧ Q m g = true := by
  obtain ⟨⟨m, g⟩, hs, hQ⟩ := (Option.any_eq_true _ _).1 h
  exact ⟨m, g, nests_of_follow .init hs, hQ⟩

/-- In an arithmetic command of the top level `<<` shifts. -/
theorem shift_guarded : ∃ m g, m.inArithmetic g = true ∧
    m.endsAt defaultOptions ['<', '<'] '2' = true ∧ Guarded defaultOptions m g := by
  have hrun : ∃ m g, Nests defaultOptions ['(', '(', '1', '<', '<', '2', ')', ')']
      (Outermost defaultOptions) m g ∧
        (m.inArithmetic g && m.endsAt defaultOptions ['<', '<'] '2') = true :=
    exists_nests (Q := fun m g => m.inArithmetic g && m.endsAt defaultOptions ['<', '<'] '2') 15
      (by decide +kernel)
  obtain ⟨m, g, hnests, h⟩ := hrun
  obtain ⟨hin, hends⟩ := Bool.and_eq_true_iff.1 h
  exact ⟨m, g, hin, hends, hnests.guarded⟩

/-- Behind a construct that is closed inside of another one, `<<` starts a here-document. -/
theorem closed_not_guarded : ¬ ∀ (o : TokenizerOptions) (input : List Char) (m : Machine)
    (g : Option ArithmeticCommand), Nests o input (fun _ _ _ => True) m g → Guarded o m g := by
  intro hall
  have hrun : ∃ m g, Nests defaultOptions
      ['$', '(', '(', '$', '(', '(', '1', ')', ')', '<', '<', '2', ')', ')'] (fun _ _ _ => True)
      m g ∧ (m.inArithmetic g && match m.step defaultOptions with
        | .next m' => m'.tz.cross.awaitsTag
        | _ => false) = true :=
    exists_nests (Q := fun m g => m.inArithmetic g && match m.step defaultOptions with
      | .next m' => m'.tz.cross.awaitsTag
      | _ => false) 16 (by decide +kernel)
  obtain ⟨m, g, hnests, h⟩ := hrun
  obtain ⟨hin, hstarts⟩ := Bool.and_eq_true_iff.1 h
  cases hstep : m.step defaultOptions with
  | next m' =>
    rw [hstep] at hstarts
    have hcalm := ((hall _ _ _ _ hnests).inside hin m' hstep).1
    exact nomatch hcalm.symm.trans hstarts
  | finished tokens =>
    rw [hstep] at hstarts
    cases hstarts
  | stopped s =>
    rw [hstep] at hstarts
    cases hstarts

end Seahaven.Parser
