import Seahaven.Parser.Token
import Mathlib.Logic.Relation
import Mathlib.Algebra.Order.Ring.Nat

/-!
# The tokenizer

`next_token_until` reads one token; for `$(`, `$[` and `${` it reads the tokens inside by calling
itself, through `consume_nested_construct` or the same loop written out for `${`. The calls under
way are kept in a list, so that the tokenizer is a machine that takes one step after the other.

1. `nextTokenRound` is one round of the loop of `next_token_until`.
2. `takeToken` is one round of the loop of a nested construct, from the token it has got.
3. `step` is a step of `uncached_tokenize_str` with the calls under way, `Ends` what a run comes to.
-/

namespace Seahaven.Parser

open TokenParseState

/-! ## The reader -/

/-- The characters that are still to be read, and the state kept across tokens. -/
structure Tokenizer where
  chars : List Char
  cross : CrossTokenParseState

namespace Tokenizer

def advance (tz : Tokenizer) (n : Nat) : Tokenizer where
  chars := tz.chars.drop n
  cross := { tz.cross with cursor := (tz.chars.take n).foldl SourcePosition.after tz.cross.cursor }

def setArithmetic (tz : Tokenizer) (b : Bool) : Tokenizer :=
  { tz with cross := { tz.cross with arithmeticExpansion := b } }

def setHereState (tz : Tokenizer) (h : HereState) : Tokenizer :=
  { tz with cross := { tz.cross with hereState := h } }

end Tokenizer

/-- What is consumed up to the unescaped backquote that ends a substitution. -/
def takeBackquoted : Bool → List Char → Option (List Char)
  | _, [] => none
  | escaping, c :: rest =>
    if escaping = false ∧ c = '\\' then (takeBackquoted true rest).map (c :: ·)
    else if escaping = false ∧ c = '`' then some [c]
    else (takeBackquoted false rest).map (c :: ·)

/-- What is consumed up to the parenthesis that ends an extended glob pattern. -/
def takeExtglob : Nat → Bool → List Char → Option (List Char)
  | _, _, [] => none
  | depth, inEscape, c :: rest =>
    if inEscape then (takeExtglob depth false rest).map (c :: ·)
    else if c = '\\' then (takeExtglob depth true rest).map (c :: ·)
    else if c = '(' then (takeExtglob (depth + 1) false rest).map (c :: ·)
    else if c = ')' then
      if depth ≤ 1 then some [c] else (takeExtglob (depth - 1) false rest).map (c :: ·)
    else (takeExtglob depth false rest).map (c :: ·)

/-! ## Calls and constructs -/

/-- A call of `next_token_until` under way. -/
structure Call where
  state : TokenParseState
  terminatingChar : Option Char
  includeSpace : Bool

/-- What is read by calls of its own: by `consume_nested_construct`, with its arguments, or the
text of `${`. -/
inductive Construct
  | nested (terminatingChar : Char) (nestingOpen : List Char) (nestingCount : Nat)
    (isArithmetic : Bool)
  | brace
  deriving DecidableEq

namespace Construct

def terminatingChar : Construct → Char
  | .nested c _ _ _ => c
  | .brace => '\x7d'

def includeSpace : Construct → Bool
  | .nested .. => true
  | .brace => false

def unterminated : Construct → TokenizerError
  | .nested .. => .unterminatedExpansion
  | .brace => .unterminatedVariable

end Construct

def Construct.call (k : Construct) (cursor : SourcePosition) : Call :=
  ⟨.new cursor, some k.terminatingChar, k.includeSpace⟩

def maxNesting : Nat := 2 ^ 32 - 1

/-- The loop of a construct, with the here-document tokens it holds back. -/
structure ConstructLoop where
  construct : Construct
  pending : List TokenizeResult
  drain : Bool

/-- What one round of the loop of `next_token_until` comes to. -/
inductive Round
  | more (st : TokenParseState) (tz : Tokenizer)
  | done (r : TokenizeResult) (tz : Tokenizer)
  | enter (k : Construct) (st : TokenParseState) (tz : Tokenizer)
  | stop (s : Stop)

def Round.ofDelimited (tz : Tokenizer) : Except Stop Delimited → Round
  | .error s => .stop s
  | .ok (none, st, cross) => .more st { tz with cross := cross }
  | .ok (some r, _, cross) => .done r { tz with cross := cross }

/-! ## One round -/

/-- At the end of the input. -/
def endOfInputRound (st : TokenParseState) (tz : Tokenizer) : Round :=
  if st.inEscape then .stop (.error .unterminatedEscapeSequence)
  else
    match st.quoteMode with
    | .ansiC pos => .stop (.error (.unterminatedAnsiCQuote pos))
    | .single pos => .stop (.error (.unterminatedSingleQuote pos))
    | .double pos => .stop (.error (.unterminatedDoubleQuote pos))
    | .none =>
      if tz.cross.hereState = .none then
        .ofDelimited tz (st.delimitCurrentToken .endOfInput tz.cross)
      else
        match st.removeHereEndTag false tz.cross with
        | .error s => .stop s
        | .ok (some d) => .ofDelimited tz (.ok d)
        | .ok none =>
          .stop (.error (.unterminatedHereDocuments
            (tz.cross.currentHereTags.map fun tag => (tag.tag, tag.position))))

/-- In the body of a here-document. -/
def hereDocRound (st : TokenParseState) (tz : Tokenizer) (c : Char) : Round :=
  let removesTab := tz.cross.currentHereTags.head?.any (·.removeTabs) &&
    (!st.startedToken || st.tokenSoFar.getLast? == some '\n') && c == '\t'
  let tz := tz.advance 1
  if removesTab then .more st tz
  else if c = '\n' then
    match (st.append [c]).removeHereEndTag true tz.cross with
    | .error s => .stop s
    | .ok (some d) => .ofDelimited tz (.ok d)
    | .ok none => .more (st.append [c]) tz
  else .more (st.append [c]) tz

/-- What the end of an operator changes before it is delimited. -/
def operatorEnds (st : TokenParseState) (tz : Tokenizer) (c : Char) : Tokenizer :=
  if tz.cross.arithmeticExpansion then
    if st.isSpecificOperator [')'] ∧ c = ')' then tz.setArithmetic false else tz
  else if st.isSpecificOperator ['<', '<'] then tz.setHereState (.nextTokenIsHereTag false)
  else if st.isSpecificOperator ['<', '<', '-'] then tz.setHereState (.nextTokenIsHereTag true)
  else if st.isSpecificOperator ['('] ∧ c = '(' then tz.setArithmetic true
  else tz

/-- In an operator. -/
def operatorRound (o : TokenizerOptions) (st : TokenParseState) (tz : Tokenizer) (c : Char) :
    Round :=
  if st.unquoted ∧ isOperator o (st.tokenSoFar ++ [c]) then
    .more (st.append [c]) (tz.advance 1)
  else if st.startedToken = false then .stop (.panic .startedToken)
  else
    let tz := operatorEnds st tz c
    let reason := if st.isNewline then TokenEndReason.unescapedNewLine else .operatorEnd
    .ofDelimited tz (st.delimitCurrentToken reason tz.cross)

/-- At a character that starts an escape or a quote. -/
def quotingRound (st : TokenParseState) (tz : Tokenizer) (c : Char) : Round :=
  if c = '\\' then
    if (tz.chars.drop 1).head? = some '\n' then .more st (tz.advance 2)
    else .more { st.append [c] with inEscape := true } (tz.advance 1)
  else if c = '\'' then
    let mode := if st.tokenSoFar.getLast? = some '$' then QuoteMode.ansiC tz.cross.cursor
      else .single tz.cross.cursor
    .more { st.append [c] with quoteMode := mode } (tz.advance 1)
  else .more { st.append [c] with quoteMode := .double tz.cross.cursor } (tz.advance 1)

/-- At a dollar sign. -/
def dollarRound (st : TokenParseState) (tz : Tokenizer) : Round :=
  match tz.chars.drop 1 with
  | '(' :: '(' :: _ =>
    .enter (.nested ')' ['('] 2 true) (st.append ['$', '(', '('])
      ((tz.advance 3).setArithmetic true)
  | '(' :: _ => .enter (.nested ')' ['('] 1 false) (st.append ['$', '(']) (tz.advance 2)
  | '[' :: _ =>
    .enter (.nested ']' ['['] 1 true) (st.append ['$', '[']) ((tz.advance 2).setArithmetic true)
  | '\x7b' :: _ => .enter .brace (st.append ['$', '\x7b']) (tz.advance 2)
  | _ => .more (st.append ['$']) (tz.advance 1)

def backquoteRound (st : TokenParseState) (tz : Tokenizer) : Round :=
  match takeBackquoted false (tz.chars.drop 1) with
  | none => .stop (.error (.unterminatedBackquote tz.cross.cursor))
  | some text => .more (st.append ('`' :: text)) (tz.advance (text.length + 1))

def extglobRound (st : TokenParseState) (tz : Tokenizer) : Round :=
  match takeExtglob 1 false (tz.chars.drop 1) with
  | none =>
    .stop (.error (.unterminatedExtendedGlob (tz.advance tz.chars.length).cross.cursor))
  | some text => .more (st.append ('(' :: text)) (tz.advance (text.length + 1))

/-- At a blank. -/
def blankRound (call : Call) (tz : Tokenizer) (c : Char) : Round :=
  let st := call.state
  if st.startedToken then
    match Round.ofDelimited tz (st.delimitCurrentToken .nonNewLineBlank tz.cross) with
    | .more st tz => .more st (tz.advance 1)
    | .done r tz => .done r (tz.advance 1)
    | r => r
  else if call.includeSpace then .more (st.append [c]) (tz.advance 1)
  else
    let start := { st.startPosition with
      column := st.startPosition.column + 1, index := st.startPosition.index + 1 }
    .more { st with startPosition := start } (tz.advance 1)

/-- At a character, with no token queued. -/
def charRound (o : TokenizerOptions) (call : Call) (tz : Tokenizer) (c : Char) : Round :=
  let st := call.state
  if tz.cross.hereState = .inHereDocs then hereDocRound st tz c
  else if st.unquoted ∧ call.terminatingChar = some c then
    .ofDelimited tz (st.delimitCurrentToken .specifiedTerminatingChar tz.cross)
  else if st.tokenIsOperator then operatorRound o st tz c
  else if st.newlyAffectsQuoting c then quotingRound st tz c
  else if st.inEscape = false ∧ st.inSingleQuotes ∧ c = '\'' then
    .more { st.append [c] with quoteMode := .none } (tz.advance 1)
  else if st.inEscape = false ∧ st.inDoubleQuotes ∧ c = '"' then
    .more { st.append [c] with quoteMode := .none } (tz.advance 1)
  else if st.inEscape then .more { st.append [c] with inEscape := false } (tz.advance 1)
  else if (st.unquoted ∨ st.inDoubleQuotes) ∧ c = '$' then dollarRound st tz
  else if (st.unquoted ∨ st.inDoubleQuotes) ∧ c = '`' then backquoteRound st tz
  else if c = '(' ∧ o.enableExtendedGlobbing ∧ st.unquoted ∧
      st.tokenSoFar.getLast?.any canStartExtglob then
    extglobRound st tz
  else if st.unquoted ∧ canStartOperator c then
    if st.startedToken then .ofDelimited tz (st.delimitCurrentToken .operatorStart tz.cross)
    else .more { st.append [c] with tokenIsOperator := true } (tz.advance 1)
  else if st.unquoted ∧ isBlank c then blankRound call tz c
  else if st.startedToken ∨ call.terminatingChar = some '\x7d' then
    .more (st.append [c]) (tz.advance 1)
  else if c = '#' then .more st (tz.advance (tz.chars.takeWhile (· ≠ '\n')).length)
  else .more (st.append [c]) (tz.advance 1)

/-- One round of the loop of `next_token_until`. -/
def nextTokenRound (o : TokenizerOptions) (call : Call) (tz : Tokenizer) : Round :=
  match tz.cross.queuedTokens with
  | r :: queue => .done r { tz with cross := { tz.cross with queuedTokens := queue } }
  | [] =>
    match tz.chars with
    | [] => endOfInputRound call.state tz
    | c :: _ => charRound o call tz c

/-! ## One token of a construct -/

/-- What a round of the loop of a construct comes to. -/
inductive Taken
  | more (l : ConstructLoop) (st : TokenParseState) (tz : Tokenizer)
  | ended (st : TokenParseState) (tz : Tokenizer)
  | stop (s : Stop)

def isHereDocument (r : TokenizeResult) : Bool :=
  r.reason == .hereDocumentBodyStart || r.reason == .hereDocumentBodyEnd ||
    r.reason == .hereDocumentEndTag

def TokenizeResult.text (r : TokenizeResult) : List Char := (r.token.map Token.toStr).getD []

def TokenizeResult.isOperator (r : TokenizeResult) (operator : List Char) : Bool :=
  match r.token with
  | some (.operator s _) => s == operator
  | _ => false

def consumeNext (st : TokenParseState) (tz : Tokenizer) :
    Except Stop (TokenParseState × Tokenizer) :=
  match tz.chars with
  | [] => .error (.panic .nextChar)
  | c :: _ => .ok (st.append [c], tz.advance 1)

/-- At the terminating character: the end of the construct, or of a delimiter inside it. -/
def terminate (l : ConstructLoop) (st : TokenParseState) (tz : Tokenizer) : Taken :=
  match l.construct with
  | .brace =>
    match consumeNext st tz with
    | .error s => .stop s
    | .ok (st, tz) => .ended st tz
  | .nested t nestingOpen count isArithmetic =>
    if count = 0 then .stop (.panic .nestingCount)
    else
      match consumeNext st tz with
      | .error s => .stop s
      | .ok (st, tz) =>
        if count = 1 then .ended st (if isArithmetic then tz.setArithmetic false else tz)
        else .more { l with construct := .nested t nestingOpen (count - 1) isArithmetic } st tz

/-- An opening delimiter is counted. -/
def countOpen (l : ConstructLoop) (r : TokenizeResult) : Except Stop ConstructLoop :=
  match l.construct with
  | .brace => .ok l
  | .nested t nestingOpen count isArithmetic =>
    if r.isOperator nestingOpen then
      if count < maxNesting then
        .ok { l with construct := .nested t nestingOpen (count + 1) isArithmetic }
      else .error (.panic .nestingCount)
    else .ok l

/-- One round of the loop of a construct, from the token it has got: a token of a here-document is
held back until the line has ended. -/
def takeToken (l : ConstructLoop) (r : TokenizeResult) (st : TokenParseState) (tz : Tokenizer) :
    Taken :=
  if r.reason = .unescapedNewLine ∧ l.pending ≠ [] then
    .more { l with pending := l.pending ++ [r], drain := true } st tz
  else
    match countOpen l r with
    | .error s => .stop s
    | .ok l =>
      let st := st.append r.text
      match r.reason with
      | .hereDocumentBodyStart => .more l (st.append ['\n']) tz
      | .nonNewLineBlank => .more l (st.append [' ']) tz
      | .specifiedTerminatingChar => terminate l st tz
      | .endOfInput => .stop (.error l.construct.unterminated)
      | _ => .more l st tz

/-! ## Steps -/

/-- What is under way: a call, the next round of a loop, or a loop with the token it has got. -/
inductive Mode
  | call (c : Call)
  | loop
  | result (r : TokenizeResult)

/-- The tokenizer with the calls under way: the constructs that are being read, the innermost
first, each with the call it is part of; around them the loop of `uncached_tokenize_str`, with the
tokens it has got. -/
structure Machine where
  tz : Tokenizer
  tokens : List Token
  outer : List (ConstructLoop × Call)
  mode : Mode

/-- What a step comes to. -/
inductive Outcome
  | next (m : Machine)
  | finished (tokens : List Token)
  | stopped (s : Stop)

namespace Machine

/-- The construct goes on, or its call does. -/
def afterTaken (m : Machine) (call : Call) (outer : List (ConstructLoop × Call)) :
    Taken → Outcome
  | .more l st tz =>
    .next { m with tz := tz, outer := (l, { call with state := st }) :: outer, mode := .loop }
  | .ended st tz =>
    .next { m with tz := tz, outer := outer, mode := .call { call with state := st } }
  | .stop s => .stopped s

/-- The next round of the innermost loop: a token that was held back, or a new call. -/
def stepLoop (m : Machine) : Outcome :=
  match m.outer with
  | [] => .next { m with mode := .call ⟨.new m.tz.cross.cursor, none, false⟩ }
  | (l, call) :: outer =>
    match l.drain, l.pending with
    | true, r :: pending =>
      m.afterTaken call outer
        (takeToken { l with pending := pending, drain := !pending.isEmpty } r call.state m.tz)
    | _, _ =>
      .next { m with mode := .call (l.construct.call m.tz.cross.cursor) }

/-- The innermost loop has got a token. -/
def stepResult (m : Machine) (r : TokenizeResult) : Outcome :=
  match m.outer with
  | [] =>
    match r.token with
    | some t => .next { m with tokens := m.tokens ++ [t], mode := .loop }
    | none =>
      if r.reason = .endOfInput then .finished m.tokens else .next { m with mode := .loop }
  | (l, call) :: outer =>
    if isHereDocument r then
      .next { m with outer := ({ l with pending := l.pending ++ [r] }, call) :: outer,
                     mode := .loop }
    else m.afterTaken call outer (takeToken l r call.state m.tz)

/-- A round of the innermost call. -/
def stepCall (o : TokenizerOptions) (m : Machine) (call : Call) : Outcome :=
  match nextTokenRound o call m.tz with
  | .more st tz => .next { m with tz := tz, mode := .call { call with state := st } }
  | .done r tz => .next { m with tz := tz, mode := .result r }
  | .enter k st tz =>
    .next { m with tz := tz, outer := (⟨k, [], false⟩, { call with state := st }) :: m.outer,
                   mode := .loop }
  | .stop s => .stopped s

def step (o : TokenizerOptions) (m : Machine) : Outcome :=
  match m.mode with
  | .call call => m.stepCall o call
  | .loop => m.stepLoop
  | .result r => m.stepResult r

/-- `Tokenizer::new` on a string, before the first token is asked for. -/
def init (input : List Char) : Machine where
  tz := { chars := input
          cross := { cursor := ⟨0, 1, 1⟩
                     hereState := .none
                     currentHereTags := []
                     queuedTokens := []
                     arithmeticExpansion := false } }
  tokens := []
  outer := []
  mode := .loop

/-- The first steps of a run. -/
def run (o : TokenizerOptions) : Nat → Machine → Outcome
  | 0, m => .next m
  | n + 1, m =>
    match m.step o with
    | .next m => run o n m
    | out => out

def Next (o : TokenizerOptions) (m m' : Machine) : Prop := m.step o = .next m'

def Reaches (o : TokenizerOptions) (input : List Char) (m : Machine) : Prop :=
  Relation.ReflTransGen (Next o) (init input) m

end Machine

/-- `uncached_tokenize_str`, after so many steps: the tokens or how it stopped, once it has come
to an end. -/
def uncachedTokenizeStr (o : TokenizerOptions) (input : List Char) (steps : Nat) :
    Option (Except Stop (List Token)) :=
  match Machine.run o steps (.init input) with
  | .next _ => none
  | .finished tokens => some (.ok tokens)
  | .stopped s => some (.error s)

end Seahaven.Parser
