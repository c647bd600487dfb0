import Seahaven.Lib.Grammar
import Mathlib.Algebra.Order.Ring.Nat

/-!
# The whole grammar of words

`expansion_parser`, as a grammar: what each rule takes off a text, where it gives up an alternative,
and which digit strings it converts. What the rules make of a text is left out.

1. `WordRule`, and the stop conditions that rules are given.
2. `wordGrammar`: the body of each rule, under the options of the parser.
3. `wellFormed_wordGrammar`: no rule calls itself on the same input.
-/

namespace Seahaven.Parser

open Grammar Grammar.Exp

/-- The options of the parser that the grammar reads. -/
structure ParserOptions where
  shMode : Bool
  tildeExpansionAtWordStart : Bool
  tildeExpansionAfterColon : Bool

/-- `ParserOptions::default`. -/
def ParserOptions.default : ParserOptions where
  shMode := false
  tildeExpansionAtWordStart := true
  tildeExpansionAfterColon := false

/-- The stop conditions. -/
inductive StopCondition
  | eof
  | openBraceOr (stop : StopCondition)
  | commaOrCloseBrace
  /-- `param_rule_or_open_paren`. -/
  | openParenOr (stop : StopCondition)
  | closeParen
  | closeParens
  | closeBracket
  | colonOrCloseBrace
  | closeBrace
  | closeBraceOrSlash

/-- The rules. -/
inductive WordRule
  | unexpandedWord
  | word (stop : StopCondition)
  | braceExpansions
  | braceExpansionPiece (stop : StopCondition)
  | nonBraceExprText (stop : StopCondition)
  | braceExpr
  | braceExprInner
  | braceTextListExpr
  | braceTextListMember
  | braceSequenceExpr
  | number
  | numberSign
  | character
  | arithmeticWord (stop : StopCondition)
  | arithmeticWordPiece (stop : StopCondition)
  | arithmeticWordPlusRightParen
  | wordPieceWithSource (stop : StopCondition) (inCommand : Bool)
  | wordPiece (stop : StopCondition) (inCommand : Bool)
  | dollarSignWordPiece
  | doubleQuotedWordPiece
  | doubleQuotedSequence
  | gettextDoubleQuotedSequence
  | doubleQuotedSequenceInner
  | singleQuotedLiteralText
  | ansiCQuotedText
  | unquotedLiteralText (stop : StopCondition) (inCommand : Bool)
  | unquotedLiteralTextPiece (stop : StopCondition) (inCommand : Bool)
  | enabledTildeExprAfterColon
  | lastCharIsColon
  | isTrue (value : Bool)
  | extglobPattern
  | extglobBodyPiece
  | subshellCommand
  | doubleQuotedText
  | doubleQuoteBodyText
  | unexpandedHeredocWord
  | heredocWord (stop : StopCondition)
  | heredocWordPieceWithSource (stop : StopCondition)
  | heredocWordPiece
  | heredocEscapeSequence
  | heredocLiteralText
  | normalEscapeSequence
  | doubleQuotedEscapeSequence
  | tildeExprPrefixWithSource
  | tildeExprPrefix
  | tildeExpressionPiece
  | tildeExpression
  | tildeTerminator
  | portableFilenameChar
  | parameterExpansion
  | parameterExpression
  | parameterTestType
  | nonPosixParameterExpression
  | parameterIndirection
  | nonPosixParameterTransformationOp
  | unbracedParameter
  | parameter
  | positionalParameter
  | unbracedPositionalParameter
  | specialParameter
  | variableName
  | commandSubstitution
  | command
  | commandPiece
  | backquotedCommand
  | backquotedChar
  | arithmeticExpansion
  | legacyArithmeticExpansion
  | substringOffset
  | substringLength
  | parameterReplacementStr
  | parameterSearchPattern
  | parameterExpressionWord
  | nonPosixExtensionsEnabled
  | tildeExprsAtWordStartEnabled
  | tildeExprsAfterColonEnabled
  | nameEqualsScalarValue
  | nameEquals
  | literalArrayElement
  | assignmentName
  | arrayElementName
  | arrayIndex
  | assignedScalarName
  | nonFirstVariableChar
  | alphaOrUnderscore
  | assignedScalarValue

/-- The types that digit strings are converted to. -/
inductive Conversion
  | i64
  | usize
  | u32
  deriving DecidableEq

def numberOf (digits : List Char) : Nat :=
  digits.foldl (fun n c => n * 10 + (c.toNat - '0'.toNat)) 0

/-- `parse`, of digits, to a type of numbers below a bound. -/
def parseBelow (bound : Nat) (digits : List Char) : Option Nat :=
  if digits ≠ [] ∧ numberOf digits < bound then some (numberOf digits) else none

/-- A conversion: `unwrap`, except for positional parameters, where an error makes the rule fail. -/
def Conversion.verdict (f : Conversion) (digits : List Char) : Verdict :=
  match f with
  | .i64 => if (parseBelow (2 ^ 63) digits).isSome then .ok else .panic
  | .usize => if (parseBelow (2 ^ 64) digits).isSome then .ok else .panic
  | .u32 => if (parseBelow (2 ^ 32) digits).isSome then .ok else .err

abbrev WordExp := Exp WordRule Conversion

def oneOf (cs : List Char) : WordExp := .one cs.contains

def noneOf (cs : List Char) : WordExp := .one fun c => !cs.contains c

/-- `['0'..='9']`. -/
def digit : WordExp := .one Char.isDigit

/-- What stops a text. -/
def StopCondition.exp : StopCondition → WordExp
  | .eof => absent any
  | .openBraceOr stop => alt (oneOf ['\x7b']) stop.exp
  | .commaOrCloseBrace => oneOf [',', '\x7d']
  | .openParenOr stop => alt stop.exp (oneOf ['('])
  | .closeParen => oneOf [')']
  | .closeParens => lit [')', ')']
  | .closeBracket => oneOf [']']
  | .colonOrCloseBrace => oneOf [':', '\x7d']
  | .closeBrace => oneOf ['\x7d']
  | .closeBraceOrSlash => oneOf ['\x7d', '/']

/-- `&[_] {? … }`: a condition on the options, where there is a character left. -/
def enabled (b : Bool) : WordExp := seq (look any) (check b)

/-- An alternative of `parameter_expression`: a parameter and what follows it. -/
def onParameter (es : List WordExp) : WordExp :=
  seqs (call .parameterIndirection :: call .parameter :: es)

/-- The body of each rule. -/
def wordBody (o : ParserOptions) : WordRule → WordExp
  | .unexpandedWord => seqs [look (star any), call (.word .eof)]
  | .word stop =>
    seqs [opt (call .tildeExprPrefixWithSource), star (call (.wordPieceWithSource stop false))]
  | .braceExpansions => alts [plus (call (.braceExpansionPiece .eof)), star any]
  | .braceExpansionPiece stop =>
    alts [call .braceExpr, plus (call (.nonBraceExprText stop))]
  | .nonBraceExprText stop =>
    alts [
      seqs [absent (oneOf ['\x7b']), call (.wordPiece (.openBraceOr stop) false)],
      seqs [absent (call .braceExpr), absent stop.exp, oneOf ['\x7b']]]
  | .braceExpr => seqs [oneOf ['\x7b'], call .braceExprInner, oneOf ['\x7d']]
  | .braceExprInner => alts [call .braceTextListExpr, call .braceSequenceExpr]
  | .braceTextListExpr =>
    seqs [call .braceTextListMember, plus (seq (oneOf [',']) (call .braceTextListMember))]
  | .braceTextListMember =>
    alts [look (oneOf [',', '\x7d']), plus (call (.braceExpansionPiece .commaOrCloseBrace))]
  | .braceSequenceExpr =>
    alts [
      seqs [call .number, lit ['.', '.'], call .number,
        opt (seq (lit ['.', '.']) (call .number))],
      seqs [call .character, lit ['.', '.'], call .character,
        opt (seq (lit ['.', '.']) (call .number))]]
  | .number => seqs [opt (call .numberSign), convert .i64 (plus digit)]
  | .numberSign => alts [oneOf ['-'], oneOf ['+']]
  | .character => one fun c => c.isLower || c.isUpper
  | .arithmeticWord stop => star (call (.arithmeticWordPiece stop))
  | .arithmeticWordPiece stop =>
    alts [
      seqs [oneOf ['('], call .arithmeticWordPlusRightParen],
      call .arrayElementName,
      seqs [absent (oneOf ['(']), call (.wordPiece (.openParenOr stop) false)]]
  | .arithmeticWordPlusRightParen => seqs [call (.arithmeticWord .closeParen), oneOf [')']]
  | .wordPieceWithSource stop inCommand => call (.wordPiece stop inCommand)
  | .wordPiece stop inCommand =>
    alts [call .doubleQuotedSequence, call .singleQuotedLiteralText, call .ansiCQuotedText,
      call .gettextDoubleQuotedSequence, call .dollarSignWordPiece, call .normalEscapeSequence,
      call .enabledTildeExprAfterColon, call (.unquotedLiteralText stop inCommand)]
  | .dollarSignWordPiece =>
    alts [call .arithmeticExpansion, call .legacyArithmeticExpansion, call .commandSubstitution,
      call .parameterExpansion]
  | .doubleQuotedWordPiece =>
    alts [call .arithmeticExpansion, call .legacyArithmeticExpansion, call .commandSubstitution,
      call .parameterExpansion, call .doubleQuotedEscapeSequence, call .doubleQuotedText]
  | .doubleQuotedSequence =>
    seqs [oneOf ['"'], star (call .doubleQuotedSequenceInner), oneOf ['"']]
  | .gettextDoubleQuotedSequence =>
    seqs [lit ['$', '"'], star (call .doubleQuotedSequenceInner), oneOf ['"']]
  | .doubleQuotedSequenceInner => call .doubleQuotedWordPiece
  | .singleQuotedLiteralText => seqs [oneOf ['\''], star (noneOf ['\'']), oneOf ['\'']]
  | .ansiCQuotedText =>
    seqs [lit ['$', '\''], star (alts [lit ['\\', '\\'], lit ['\\', '\''], noneOf ['\'']]),
      oneOf ['\'']]
  | .unquotedLiteralText stop inCommand => plus (call (.unquotedLiteralTextPiece stop inCommand))
  | .unquotedLiteralTextPiece stop inCommand =>
    alts [
      seqs [call (.isTrue inCommand), call .extglobPattern],
      seqs [call (.isTrue inCommand), call .subshellCommand],
      seqs [absent stop.exp, absent (call .normalEscapeSequence),
        absent (call .enabledTildeExprAfterColon), noneOf ['\'', '"', '$', '`']]]
  | .enabledTildeExprAfterColon =>
    seqs [call .tildeExprsAfterColonEnabled, call .lastCharIsColon, call .tildeExpressionPiece]
  | .lastCharIsColon => behind (· == ':')
  | .isTrue value => enabled value
  | .extglobPattern =>
    seqs [oneOf ['@', '!', '?', '+', '*'], oneOf ['('], star (call .extglobBodyPiece), oneOf [')']]
  | .extglobBodyPiece => call (.wordPiece .closeParen true)
  | .subshellCommand => seqs [oneOf ['('], call .command, oneOf [')']]
  | .doubleQuotedText => call .doubleQuoteBodyText
  | .doubleQuoteBodyText =>
    plus (seqs [absent (call .doubleQuotedEscapeSequence), absent (call .dollarSignWordPiece),
      noneOf ['"']])
  | .unexpandedHeredocWord => seqs [look (star any), call (.heredocWord .eof)]
  | .heredocWord stop => star (call (.heredocWordPieceWithSource stop))
  | .heredocWordPieceWithSource stop => seqs [absent stop.exp, call .heredocWordPiece]
  | .heredocWordPiece =>
    alts [call .arithmeticExpansion, call .legacyArithmeticExpansion, call .commandSubstitution,
      call .parameterExpansion, call .heredocEscapeSequence, call .heredocLiteralText]
  | .heredocEscapeSequence => seqs [oneOf ['\\'], oneOf ['$', '`', '\\']]
  | .heredocLiteralText =>
    plus (seqs [absent (call .heredocEscapeSequence), absent (call .dollarSignWordPiece),
      noneOf ['`']])
  | .normalEscapeSequence => seqs [oneOf ['\\'], any]
  | .doubleQuotedEscapeSequence => seqs [oneOf ['\\'], oneOf ['$', '`', '"', '\\']]
  | .tildeExprPrefixWithSource => call .tildeExprPrefix
  | .tildeExprPrefix => seqs [call .tildeExprsAtWordStartEnabled, call .tildeExpressionPiece]
  | .tildeExpressionPiece => seqs [oneOf ['~'], call .tildeExpression]
  | .tildeExpression =>
    alts [
      look (call .tildeTerminator),
      seqs [oneOf ['+'], look (call .tildeTerminator)],
      seqs [opt (oneOf ['+']), convert .usize (seq (star digit) (look (call .tildeTerminator)))],
      seqs [oneOf ['-'], look (call .tildeTerminator)],
      seqs [oneOf ['-'], convert .usize (seq (star digit) (look (call .tildeTerminator)))],
      seqs [star (call .portableFilenameChar), look (call .tildeTerminator)]]
  | .tildeTerminator => alts [oneOf ['/', ':', ';', '\x7d'], absent any]
  | .portableFilenameChar =>
    one fun c => c.isUpper || c.isLower || c.isDigit || ['.', '_', '-'].contains c
  | .parameterExpansion =>
    alts [
      seqs [lit ['$', '\x7b'], call .parameterExpression, oneOf ['\x7d']],
      seqs [oneOf ['$'], call .unbracedParameter],
      seqs [oneOf ['$'], absent (oneOf ['\''])]]
  | .parameterExpression =>
    alts [
      onParameter [call .parameterTestType, oneOf ['-'], opt (call .parameterExpressionWord)],
      onParameter [call .parameterTestType, oneOf ['='], opt (call .parameterExpressionWord)],
      onParameter [call .parameterTestType, oneOf ['?'], opt (call .parameterExpressionWord)],
      onParameter [call .parameterTestType, oneOf ['+'], opt (call .parameterExpressionWord)],
      seqs [oneOf ['#'], call .parameter],
      onParameter [lit ['%', '%'], opt (call .parameterExpressionWord)],
      onParameter [oneOf ['%'], opt (call .parameterExpressionWord)],
      onParameter [lit ['#', '#'], opt (call .parameterExpressionWord)],
      onParameter [oneOf ['#'], opt (call .parameterExpressionWord)],
      seqs [call .nonPosixExtensionsEnabled, call .nonPosixParameterExpression],
      onParameter []]
  | .parameterTestType => opt (oneOf [':'])
  | .nonPosixParameterExpression =>
    alts [
      seqs [oneOf ['!'], call .variableName, lit ['[', '*', ']']],
      seqs [oneOf ['!'], call .variableName, lit ['[', '@', ']']],
      onParameter [oneOf [':'], call .substringOffset,
        opt (seq (oneOf [':']) (call .substringLength))],
      onParameter [oneOf ['@'], call .nonPosixParameterTransformationOp],
      seqs [oneOf ['!'], call .variableName, oneOf ['*']],
      seqs [oneOf ['!'], call .variableName, oneOf ['@']],
      onParameter [lit ['/', '#'], call .parameterSearchPattern,
        opt (call .parameterReplacementStr)],
      onParameter [lit ['/', '%'], call .parameterSearchPattern,
        opt (call .parameterReplacementStr)],
      onParameter [lit ['/', '/'], call .parameterSearchPattern,
        opt (call .parameterReplacementStr)],
      onParameter [oneOf ['/'], call .parameterSearchPattern,
        opt (call .parameterReplacementStr)],
      onParameter [lit ['^', '^'], opt (call .parameterExpressionWord)],
      onParameter [oneOf ['^'], opt (call .parameterExpressionWord)],
      onParameter [lit [',', ','], opt (call .parameterExpressionWord)],
      onParameter [oneOf [','], opt (call .parameterExpressionWord)]]
  | .parameterIndirection => alts [seqs [call .nonPosixExtensionsEnabled, oneOf ['!']], empty]
  | .nonPosixParameterTransformationOp => oneOf ['U', 'u', 'L', 'Q', 'E', 'P', 'A', 'K', 'a', 'k']
  | .unbracedParameter =>
    alts [call .unbracedPositionalParameter, call .specialParameter, call .variableName]
  | .parameter =>
    alts [call .positionalParameter, call .specialParameter,
      seqs [call .nonPosixExtensionsEnabled, call .variableName, lit ['[', '@', ']']],
      seqs [call .nonPosixExtensionsEnabled, call .variableName, lit ['[', '*', ']']],
      seqs [call .nonPosixExtensionsEnabled, call .variableName, oneOf ['['], call .arrayIndex,
        oneOf [']']],
      call .variableName]
  | .positionalParameter =>
    convert .u32 (seq (one fun c => c.isDigit && c != '0') (star digit))
  | .unbracedPositionalParameter => convert .u32 (one fun c => c.isDigit && c != '0')
  | .specialParameter => oneOf ['@', '*', '#', '?', '-', '$', '!', '0']
  | .variableName =>
    seqs [absent digit, plus (one fun c => c == '_' || c.isDigit || c.isLower || c.isUpper)]
  | .commandSubstitution =>
    alts [
      seqs [lit ['$', '('], call .command, oneOf [')']],
      seqs [oneOf ['`'], call .backquotedCommand, oneOf ['`']]]
  | .command => star (call .commandPiece)
  | .commandPiece =>
    alts [call (.wordPiece .closeParen true), plus (oneOf [' ', '\t']), oneOf ['\'', '`']]
  | .backquotedCommand => star (call .backquotedChar)
  | .backquotedChar => alts [lit ['\\', '`'], lit ['\\', '\\'], noneOf ['`']]
  | .arithmeticExpansion =>
    seqs [lit ['$', '(', '('], call (.arithmeticWord .closeParens), lit [')', ')']]
  | .legacyArithmeticExpansion =>
    seqs [lit ['$', '['], call (.arithmeticWord .closeBracket), oneOf [']']]
  | .substringOffset => call (.arithmeticWord .colonOrCloseBrace)
  | .substringLength => call (.arithmeticWord .colonOrCloseBrace)
  | .parameterReplacementStr => seqs [oneOf ['/'], call (.word .closeBrace)]
  | .parameterSearchPattern => call (.word .closeBraceOrSlash)
  | .parameterExpressionWord => call (.word .closeBrace)
  | .nonPosixExtensionsEnabled => enabled !o.shMode
  | .tildeExprsAtWordStartEnabled => enabled o.tildeExpansionAtWordStart
  | .tildeExprsAfterColonEnabled => enabled o.tildeExpansionAfterColon
  | .nameEqualsScalarValue => seqs [call .nameEquals, call .assignedScalarValue]
  | .nameEquals => seqs [call .assignmentName, opt (oneOf ['+']), oneOf ['=']]
  | .literalArrayElement =>
    alts [
      seqs [oneOf ['['], star (seq (absent (oneOf [']'])) any), lit [']', '='], star any],
      plus any]
  | .assignmentName => alts [call .arrayElementName, call .assignedScalarName]
  | .arrayElementName =>
    seqs [call .assignedScalarName, oneOf ['['], call .arrayIndex, oneOf [']']]
  | .arrayIndex => call (.arithmeticWord .closeBracket)
  | .assignedScalarName => seqs [call .alphaOrUnderscore, star (call .nonFirstVariableChar)]
  | .nonFirstVariableChar => one fun c => c == '_' || c.isDigit || c.isLower || c.isUpper
  | .alphaOrUnderscore => one fun c => c == '_' || c.isLower || c.isUpper
  | .assignedScalarValue => star any

/-- `expansion_parser`. -/
def wordGrammar (o : ParserOptions) : Rules WordRule Conversion where
  body := wordBody o
  convert := Conversion.verdict

/-! ## Termination -/

/-- The rules that may match nothing. -/
def WordRule.mayBeEmpty : WordRule → Bool
  | unexpandedWord | word _ | braceExpansions | braceTextListMember | arithmeticWord _
  | lastCharIsColon | isTrue _ | unexpandedHeredocWord | heredocWord _ | tildeExpression
  | tildeTerminator | parameterTestType | parameterIndirection | command | backquotedCommand
  | substringOffset | substringLength | parameterSearchPattern | parameterExpressionWord
  | nonPosixExtensionsEnabled | tildeExprsAtWordStartEnabled | tildeExprsAfterColonEnabled
  | arrayIndex | assignedScalarValue => true
  | _ => false

/-- An order of the rules: on one input, a rule calls only rules of a lower rank. -/
def WordRule.rank : WordRule → Nat
  | number | parameterIndirection | backquotedCommand | unbracedParameter
  | enabledTildeExprAfterColon | tildeExprPrefix | dollarSignWordPiece | tildeExpression
  | assignedScalarName | parameter => 1
  | braceSequenceExpr | doubleQuoteBodyText | heredocLiteralText | tildeExprPrefixWithSource
  | unquotedLiteralTextPiece _ _ | arrayElementName => 2
  | unquotedLiteralText _ _ | doubleQuotedText | nonPosixParameterExpression | heredocWordPiece
  | assignmentName => 3
  | doubleQuotedWordPiece | wordPiece _ _ | parameterExpression | heredocWordPieceWithSource _
  | nameEquals => 4
  | doubleQuotedSequenceInner | wordPieceWithSource _ _ | extglobBodyPiece | commandPiece
  | nonBraceExprText _ | arithmeticWordPiece _ | heredocWord _ | nameEqualsScalarValue => 5
  | word _ | command | braceExpansionPiece _ | arithmeticWord _ | unexpandedHeredocWord => 6
  | unexpandedWord | braceExpansions | braceTextListMember | arithmeticWordPlusRightParen
  | arrayIndex | substringOffset | substringLength | parameterSearchPattern
  | parameterExpressionWord => 7
  | braceTextListExpr => 8
  | braceExprInner => 9
  | _ => 0

theorem fine_stop (stop : StopCondition) (k : Nat) :
    stop.exp.fine WordRule.mayBeEmpty WordRule.rank 10 k = true := by
  induction stop with
  | openBraceOr stop ih => exact ih
  | openParenOr stop ih =>
    rw [StopCondition.exp, Exp.fine, ih]
    rfl
  | _ => rfl

theorem wellFormed_wordGrammar (o : ParserOptions) :
    WellFormed (wordGrammar o) WordRule.mayBeEmpty WordRule.rank 10 where
  nullable n := by
    cases n <;> first | exact fun _ => rfl | exact nofun
  fine n := by
    cases n with
    | nonBraceExprText stop =>
      simp only [wordGrammar, wordBody, alts, seqs, Exp.fine, fine_stop]
      rfl
    | unquotedLiteralTextPiece stop inCommand =>
      simp only [wordGrammar, wordBody, alts, seqs, Exp.fine, fine_stop]
      rfl
    | heredocWordPieceWithSource stop =>
      simp only [wordGrammar, wordBody, seqs, Exp.fine, fine_stop]
      rfl
    | _ => rfl
  lt n := by
    cases n <;> exact of_decide_eq_true rfl

end Seahaven.Parser
