import Mathlib.Data.List.Infix

/-!
# Tokens

The data of the tokenizer and the functions of it that take a token's state from one character to
the next: `TokenParseState::delimit_current_token` ends a token, with all it does for
here-documents, and `Tokenizer::remove_here_end_tag` ends the body of one.

A panic of the code is an outcome of its own (`Stop.panic`).
-/

namespace Seahaven.Parser

/-! ## Data -/

structure SourcePosition where
  index : Nat
  line : Nat
  column : Nat
  deriving DecidableEq

def SourcePosition.after (p : SourcePosition) (c : Char) : SourcePosition :=
  if c = '\n' then ⟨p.index + 1, p.line + 1, 1⟩ else ⟨p.index + 1, p.line, p.column + 1⟩

structure SourceSpan where
  start : SourcePosition
  stop : SourcePosition
  deriving DecidableEq

inductive TokenEndReason
  | endOfInput
  | unescapedNewLine
  | specifiedTerminatingChar
  | nonNewLineBlank
  | hereDocumentBodyStart
  | hereDocumentBodyEnd
  | hereDocumentEndTag
  | operatorStart
  | operatorEnd
  | other
  deriving DecidableEq

inductive Token
  | operator (text : List Char) (span : SourceSpan)
  | word (text : List Char) (span : SourceSpan)
  deriving DecidableEq

def Token.toStr : Token → List Char
  | .operator s _ => s
  | .word s _ => s

def Token.location : Token → SourceSpan
  | .operator _ l => l
  | .word _ l => l

structure TokenizeResult where
  reason : TokenEndReason
  token : Option Token
  deriving DecidableEq

/-- The errors of the tokenizer on a string, which is always decoded. The two texts of
`UnterminatedHereDocuments` are made of the tags and of where they stand. -/
inductive TokenizerError
  | unterminatedEscapeSequence
  | unterminatedSingleQuote (p : SourcePosition)
  | unterminatedAnsiCQuote (p : SourcePosition)
  | unterminatedDoubleQuote (p : SourcePosition)
  | unterminatedBackquote (p : SourcePosition)
  | unterminatedExtendedGlob (p : SourcePosition)
  | unterminatedVariable
  | unterminatedExpansion
  | missingHereTagForDocumentBody
  | missingHereTag (tag : List Char)
  | unterminatedHereDocuments (tags : List (List Char × SourcePosition))
  deriving DecidableEq

inductive QuoteMode
  | none
  | ansiC (p : SourcePosition)
  | single (p : SourcePosition)
  | double (p : SourcePosition)
  deriving DecidableEq

inductive HereState
  | none
  | nextTokenIsHereTag (removeTabs : Bool)
  | currentTokenIsHereTag (removeTabs : Bool) (operatorTokenResult : TokenizeResult)
  | nextLineIsHereDoc
  | inHereDocs
  deriving DecidableEq

structure HereTag where
  tag : List Char
  tagWasEscapedOrQuoted : Bool
  removeTabs : Bool
  position : SourcePosition
  tokens : List TokenizeResult
  pendingTokensAfter : List TokenizeResult
  deriving DecidableEq

structure CrossTokenParseState where
  cursor : SourcePosition
  hereState : HereState
  currentHereTags : List HereTag
  queuedTokens : List TokenizeResult
  arithmeticExpansion : Bool
  deriving DecidableEq

structure TokenizerOptions where
  enableExtendedGlobbing : Bool
  shMode : Bool
  deriving DecidableEq

structure TokenParseState where
  startPosition : SourcePosition
  tokenSoFar : List Char
  tokenIsOperator : Bool
  inEscape : Bool
  quoteMode : QuoteMode
  deriving DecidableEq

/-- Where the code panics. -/
inductive Panic
  /-- `self.next_char()?.unwrap()` at the end of the input. -/
  | nextChar
  /-- `assert!(state.started_token())`. -/
  | startedToken
  /-- `current_here_tags.remove(0)` without a tag. -/
  | hereTag
  /-- The counter of open delimiters leaves the range of its type. -/
  | nestingCount
  deriving DecidableEq

/-- How the tokenizer comes to a stop before the end of the input. -/
inductive Stop
  | error (e : TokenizerError)
  | panic (p : Panic)
  deriving DecidableEq

/-! ## Characters -/

def isBlank (c : Char) : Bool := c == ' ' || c == '\t'

def isQuotingChar (c : Char) : Bool := c == '\\' || c == '\'' || c == '"'

def canStartExtglob (c : Char) : Bool := ['@', '!', '?', '+', '*'].contains c

def canStartOperator (c : Char) : Bool := ['&', '(', ')', ';', '\n', '|', '<', '>'].contains c

def isAsciiWhitespace (c : Char) : Bool := ['\t', '\n', '\x0c', '\r', ' '].contains c

/-- `Tokenizer::is_operator`. -/
def isOperator (o : TokenizerOptions) (s : List Char) : Bool :=
  (!o.shMode && [['<', '<', '<'], ['&', '>'], ['&', '>', '>'], [';', ';', '&'], [';', '&'],
    ['|', '&']].contains s) ||
  [['&'], ['&', '&'], ['('], [')'], [';'], [';', ';'], ['\n'], ['|'], ['|', '|'], ['<'], ['>'],
    ['>', '|'], ['<', '<'], ['>', '>'], ['<', '&'], ['>', '&'], ['<', '<', '-'],
    ['<', '>']].contains s

def unquoteStr (s : List Char) : List Char := go false s
where
  go : Bool → List Char → List Char
    | _, [] => []
    | true, c :: s => c :: go false s
    | false, c :: s =>
      if c = '\\' then go true s else if isQuotingChar c then go false s else c :: go false s

def stripSuffix (suffix s : List Char) : Option (List Char) :=
  if suffix.isSuffixOf s then some (s.take (s.length - suffix.length)) else none

/-! ## The state of a token -/

namespace TokenParseState

/-- The state of a token that is yet to start. -/
def new (start : SourcePosition) : TokenParseState where
  startPosition := start
  tokenSoFar := []
  tokenIsOperator := false
  inEscape := false
  quoteMode := .none

/-- The token that `pop` takes; the state it leaves is that of a new token at the position. -/
def pop (st : TokenParseState) (stop : SourcePosition) : Token :=
  if st.tokenIsOperator then .operator st.tokenSoFar ⟨st.startPosition, stop⟩
  else .word st.tokenSoFar ⟨st.startPosition, stop⟩

def startedToken (st : TokenParseState) : Bool := !st.tokenSoFar.isEmpty

def append (st : TokenParseState) (s : List Char) : TokenParseState :=
  { st with tokenSoFar := st.tokenSoFar ++ s }

def unquoted (st : TokenParseState) : Bool := !st.inEscape && st.quoteMode == .none

def isSpecificOperator (st : TokenParseState) (operator : List Char) : Bool :=
  st.tokenIsOperator && st.tokenSoFar == operator

def isNewline (st : TokenParseState) : Bool := st.tokenSoFar == ['\n']

def inSingleQuotes (st : TokenParseState) : Bool :=
  match st.quoteMode with
  | .single _ | .ansiC _ => true
  | _ => false

def inDoubleQuotes (st : TokenParseState) : Bool :=
  match st.quoteMode with
  | .double _ => true
  | _ => false

/-- `does_char_newly_affect_quoting`. -/
def newlyAffectsQuoting (st : TokenParseState) (c : Char) : Bool :=
  !st.inEscape &&
    match st.quoteMode with
    | .double _ | .ansiC _ => c == '\\'
    | .single _ => false
    | .none => isQuotingChar c

abbrev Delimited := Option TokenizeResult × TokenParseState × CrossTokenParseState

def delimitCurrentToken (st : TokenParseState) (reason : TokenEndReason)
    (cross : CrossTokenParseState) : Except Stop Delimited :=
  if st.startedToken = false ∧ reason ≠ .hereDocumentBodyEnd then
    .ok (some ⟨reason, none⟩, st, cross)
  else
    let result : TokenizeResult := ⟨reason, some (st.pop cross.cursor)⟩
    let fresh := new cross.cursor
    match cross.hereState with
    | .nextTokenIsHereTag removeTabs =>
      .ok (none, fresh, { cross with hereState := .currentTokenIsHereTag removeTabs result })
    | .currentTokenIsHereTag removeTabs operatorTokenResult =>
      if st.isNewline then .error (.error (.missingHereTag st.tokenSoFar))
      else
        let tag := st.tokenSoFar.dropWhile isAsciiWhitespace ++ ['\n']
        .ok (none, fresh,
          { cross with
            hereState := .nextLineIsHereDoc
            currentHereTags := cross.currentHereTags ++
              [{ tag := tag
                 tagWasEscapedOrQuoted := tag.any isQuotingChar
                 removeTabs := removeTabs
                 position := cross.cursor
                 tokens := [operatorTokenResult, result]
                 pendingTokensAfter := [] }] })
    | .nextLineIsHereDoc =>
      match cross.currentHereTags.getLast? with
      | none => .error (.error .missingHereTagForDocumentBody)
      | some last =>
        .ok (none, fresh,
          { cross with
            hereState := if st.isNewline then .inHereDocs else .nextLineIsHereDoc
            currentHereTags := cross.currentHereTags.dropLast ++
              [{ last with pendingTokensAfter := last.pendingTokensAfter ++ [result] }] })
    | .inHereDocs =>
      match cross.currentHereTags with
      | [] => .error (.panic .hereTag)
      | completed :: tags =>
        let endTag := if completed.tagWasEscapedOrQuoted then unquoteStr completed.tag
          else completed.tag
        let endTag := (endTag.reverse.dropWhile (· == '\n')).reverse
        .ok (none, fresh,
          { cross with
            hereState := if tags.isEmpty then .none else .inHereDocs
            currentHereTags := tags
            queuedTokens := cross.queuedTokens ++ completed.tokens ++
              [⟨.hereDocumentBodyStart, none⟩, result,
                ⟨.hereDocumentEndTag, some ((fresh.append endTag).pop cross.cursor)⟩] ++
              completed.pendingTokensAfter })
    | .none => .ok (some result, fresh, cross)

/-- The text that ends the body of a here-document: its tag, with the newline or without. -/
def hereEndTag (tag : HereTag) (endsWithNewline : Bool) : List Char :=
  let tagStr := if tag.tagWasEscapedOrQuoted then unquoteStr tag.tag else tag.tag
  if endsWithNewline then tagStr else (stripSuffix ['\n'] tagStr).getD tagStr

/-- `remove_here_end_tag`: what it leaves where it found the tag. -/
def removeHereEndTag (st : TokenParseState) (endsWithNewline : Bool)
    (cross : CrossTokenParseState) : Except Stop (Option Delimited) :=
  match cross.currentHereTags with
  | [] => .ok none
  | tag :: _ =>
    match stripSuffix (hereEndTag tag endsWithNewline) st.tokenSoFar with
    | none => .ok none
    | some body =>
      if body.isEmpty ∨ body.getLast? = some '\n' then
        (delimitCurrentToken { st with tokenSoFar := body } .hereDocumentBodyEnd cross).map some
      else .ok none

end TokenParseState

end Seahaven.Parser
