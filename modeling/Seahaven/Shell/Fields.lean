import Seahaven.Lib.Op
import Seahaven.Parser.Word
import Seahaven.Shell.Escape

/-!
# Expansions and fields

A piece of a word expands to fields, each of them made of pieces that may be split and of pieces
that may not. The expansions of a word's pieces are joined, and the fields are split at the
characters of `IFS`.

1. `expandWordPiece` expands a piece, with what an `Expander` gives for parameters, commands,
   arithmetic and tildes.
2. `coalesceExpansions` joins expansions, `splitFields` splits what they come to.
3. `fullExpandWithSplitting` does all of it, for a word that is read into its pieces.
-/

namespace Seahaven.Shell

open Seahaven.Parser

/-! ## Expansions -/

inductive ExpansionPiece
  | unsplittable (s : List Char)
  | splittable (s : List Char)
  deriving DecidableEq

def ExpansionPiece.asStr : ExpansionPiece → List Char
  | .unsplittable s => s
  | .splittable s => s

def ExpansionPiece.makeUnsplittable (p : ExpansionPiece) : ExpansionPiece := .unsplittable p.asStr

abbrev WordField := List ExpansionPiece

def charsOf (pieces : List ExpansionPiece) : List Char := pieces.flatMap ExpansionPiece.asStr

theorem charsOf_append (l l' : List ExpansionPiece) : charsOf (l ++ l') = charsOf l ++ charsOf l' :=
  List.flatMap_append

structure Expansion where
  fields : List WordField := []
  concatenate : Bool := true
  fromArray : Bool := false
  undefined : Bool := false
  deriving DecidableEq

def Expansion.ofPiece (p : ExpansionPiece) : Expansion := { fields := [[p]] }

/-- Appends fields to fields: the first of them goes on with the last of those before. -/
def joinFields {α : Type} (acc : List (List α)) : List (List α) → List (List α)
  | [] => acc
  | field :: fields =>
    (match acc.getLast? with
      | some last => acc.dropLast ++ [last ++ field]
      | none => [field]) ++ fields

def coalesceExpansions (expansions : List Expansion) : Expansion :=
  expansions.foldl (fun acc e =>
    { acc with
      fields := joinFields acc.fields e.fields
      concatenate := e.concatenate
      fromArray := e.fromArray }) {}

inductive UnquotedBackslashHandling
  | strip
  | preserve
  | doubleQuoted
  deriving DecidableEq

/-- What the expansion of a word asks of the shell. What a command prints is given up to the NULs
and the newlines that are taken off. -/
structure Expander (P A : Type) where
  State : Type
  Error : Type
  ifs : State → List Char
  /-- `expand_parameter_expr`, between double quotes or not. -/
  expandParameterExpr : Bool → P → Op State Error Expansion
  /-- `expand_tilde_expression`. -/
  expandTildeExpression : TildeExpr → Op State Error (List Char)
  /-- `invoke_command_in_subshell_and_get_output`, where commands are to be executed. -/
  commandOutput : List Char → Op State Error (List Char)
  /-- `expand_arithmetic_expr`. -/
  expandArithmeticExpr : A → Op State Error (List Char)
  escapeError : EscapeError → Error
  /-- `expand_pathnames_in_field`, or the text of the field where pathnames are not expanded. -/
  expandPathnamesInField : WordField → Op State Error (List (List Char))

variable {P A : Type} (X : Expander P A)

/-- `get_ifs_first_char`. -/
def ifsFirstChar (ifs : List Char) : Char := ifs.head?.getD ' '

def decoded (b : List UInt8) : List Char :=
  (fromUtf8Lossy b).filterMap fun
    | .chr c => some c
    | .raw _ => none

def trimmedOutput (s : List Char) : List Char :=
  ((s.filter (· ≠ '\x00')).reverse.dropWhile (· == '\n')).reverse

/-- The fields of an expansion between double quotes. -/
def quotedFields (joiner : Char) (e : Expansion) : List WordField :=
  let fields := e.fields.map (List.map ExpansionPiece.makeUnsplittable)
  if e.concatenate then
    let concatenated := List.intercalate [.unsplittable [joiner]] fields
    [if concatenated = [] then [.unsplittable []] else concatenated]
  else fields

/-- What an escape sequence outside quotes comes to. -/
def expandEscapeSequence (h : UnquotedBackslashHandling) (s : List Char) : ExpansionPiece :=
  match s with
  | '\\' :: escaped =>
    match h with
    | .strip => .unsplittable escaped
    | .preserve => .splittable s
    | .doubleQuoted =>
      if escaped.head? = some '\n' then .unsplittable []
      else if escaped.head?.any (['\\', '$', '`', '"', '\n'].contains ·) then .unsplittable escaped
      else .unsplittable s
  | _ => .unsplittable s

mutual

def expandWordPiece (h : UnquotedBackslashHandling) (inDoubleQuotes : Bool) :
    WordPiece P A → Op X.State X.Error Expansion
  | .text s => pure (.ofPiece (.splittable s))
  | .singleQuotedText s => pure (.ofPiece (.unsplittable s))
  | .ansiCQuotedText s =>
    Op.check (match expandBackslashEscapes s .ansiCQuotes with
      | .error e => .error (X.escapeError e)
      | .ok (bytes, _) => .ok (.ofPiece (.unsplittable (decoded bytes))))
  | .doubleQuotedSequence pieces | .gettextDoubleQuotedSequence pieces => do
    let joiner ← Op.read fun s => .ok (ifsFirstChar (X.ifs s))
    let fields ← processDoubleQuotedPieces h joiner [] pieces
    pure { fields := if pieces.isEmpty then fields ++ [[.unsplittable []]] else fields
           concatenate := false }
  | .tildeExpansion e => do
    let s ← X.expandTildeExpression e
    pure (.ofPiece (.unsplittable s))
  | .parameterExpansion e => X.expandParameterExpr inDoubleQuotes e
  | .commandSubstitution s | .backquotedCommandSubstitution s => do
    let output ← X.commandOutput s
    pure (.ofPiece (.splittable (trimmedOutput output)))
  | .escapeSequence s =>
    pure (.ofPiece (if inDoubleQuotes then .unsplittable (if s.head? = some '\\' then s.tail else s)
      else expandEscapeSequence h s))
  | .arithmeticExpression e => do
    let s ← X.expandArithmeticExpr e
    pure (.ofPiece (.splittable s))

/-- The loop of `process_double_quoted_pieces`. -/
def processDoubleQuotedPieces (h : UnquotedBackslashHandling) (joiner : Char)
    (fields : List WordField) : List (WordPiece P A) → Op X.State X.Error (List WordField)
  | [] => pure fields
  | piece :: pieces => do
    let e ← expandWordPiece h true piece
    processDoubleQuotedPieces h joiner (joinFields fields (quotedFields joiner e)) pieces

end

/-- The expansions of the pieces of a word, in order. -/
def expandWordPieces (h : UnquotedBackslashHandling) :
    List (WordPiece P A) → Op X.State X.Error (List Expansion)
  | [] => pure []
  | piece :: pieces => do
    let e ← expandWordPiece X h false piece
    let es ← expandWordPieces h pieces
    pure (e :: es)

/-! ## Splitting -/

def pushChar (field : WordField) (c : Char) : WordField :=
  match field.getLast? with
  | some (.splittable last) => field.dropLast ++ [.splittable (last ++ [c])]
  | _ => field ++ [.splittable [c]]

/-- The fields that are done, and the current one. -/
structure Splitting where
  fields : List WordField
  current : WordField
  deriving DecidableEq

namespace Splitting

def flush (st : Splitting) : Splitting :=
  if st.current ≠ [] then ⟨st.fields ++ [st.current], []⟩ else st

def splitChar (ifs : List Char) (st : Splitting) (c : Char) : Splitting :=
  if ifs.contains c then st.flush else { st with current := pushChar st.current c }

def splitPiece (ifs : List Char) (st : Splitting) : ExpansionPiece → Splitting
  | .unsplittable s => { st with current := st.current ++ [.unsplittable s] }
  | .splittable s => s.foldl (splitChar ifs) st

def splitField (ifs : List Char) (st : Splitting) (field : WordField) : Splitting :=
  (field.foldl (splitPiece ifs) st).flush

end Splitting

def splitFields (ifs : List Char) (e : Expansion) : List WordField :=
  (e.fields.foldl (Splitting.splitField ifs) ⟨[], []⟩).fields

/-- The pathnames of fields, in order. -/
def expandPathnames : List WordField → Op X.State X.Error (List (List Char))
  | [] => pure []
  | field :: fields => do
    let paths ← X.expandPathnamesInField field
    let rest ← expandPathnames fields
    pure (paths ++ rest)

/-- `full_expand_with_splitting`, of a word that has been read. -/
def fullExpandWithSplitting (h : UnquotedBackslashHandling) (pieces : List (WordPiece P A)) :
    Op X.State X.Error (List (List Char)) := do
  let es ← expandWordPieces X h pieces
  let ifs ← Op.read fun s => .ok (X.ifs s)
  expandPathnames X (splitFields ifs (coalesceExpansions es))

end Seahaven.Shell
