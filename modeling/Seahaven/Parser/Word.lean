import Seahaven.Lib.Peg
import Mathlib.Data.List.TakeWhile
import Mathlib.Algebra.Order.Ring.Nat

/-!
# The grammar of words

`expansion_parser`: the pieces of a word, and the brace expressions in it. The rules for a piece
that starts with a dollar sign or a backquote are given, as are those for what starts with an
opening brace; what they read they take off their input.

1. `wordPiece` reads a piece, `doubleQuotedWordPiece` one between double quotes.
2. `tildeExpression` reads what may follow a tilde. `unexpandedWord` reads a word.
3. `braceExpansions` reads a word into brace expressions and text.
-/

namespace Seahaven.Parser

/-- What follows a tilde. A number that leaves the range of its type is none. -/
inductive TildeExpr
  | home
  | workingDir
  | oldWorkingDir
  | nthDirFromTopOfDirStack (n : Option Nat) (plusUsed : Bool)
  | nthDirFromBottomOfDirStack (n : Option Nat)
  | userHome (user : List Char)
  deriving DecidableEq

/-- Whether reading it panics: `n.parse().unwrap()`. -/
def TildeExpr.panics : TildeExpr → Bool
  | .nthDirFromTopOfDirStack n _ => n.isNone
  | .nthDirFromBottomOfDirStack n => n.isNone
  | _ => false

/-- A piece of a word, over the expressions of parameters and of arithmetic. -/
inductive WordPiece (P A : Type)
  | text (s : List Char)
  | singleQuotedText (s : List Char)
  | ansiCQuotedText (s : List Char)
  | doubleQuotedSequence (pieces : List (WordPiece P A))
  | gettextDoubleQuotedSequence (pieces : List (WordPiece P A))
  | tildeExpansion (e : TildeExpr)
  | parameterExpansion (e : P)
  | commandSubstitution (s : List Char)
  | backquotedCommandSubstitution (s : List Char)
  | escapeSequence (s : List Char)
  | arithmeticExpression (e : A)

/-- A rule that takes something off its input when it succeeds. -/
structure ShorteningRule (β : Type) where
  rule : Peg.Rule Char β
  shortens : Peg.Shortens rule

/-- The rules that are given. -/
structure WordRules (P A B : Type) where
  /-- The alternatives of `dollar_sign_word_piece`. -/
  dollar : ShorteningRule (WordPiece P A)
  /-- `brace_expr`. -/
  brace : ShorteningRule B

variable {P A B : Type} (R : WordRules P A B)

/-! ## Pieces -/

def dollarSignWordPiece : Peg.Rule Char (WordPiece P A)
  | [] => none
  | c :: s => if c = '$' ∨ c = '`' then R.dollar.rule (c :: s) else none

def doubleQuotedEscapeSequence : Peg.Rule Char (WordPiece P A)
  | '\\' :: c :: s =>
    if c = '$' ∨ c = '`' ∨ c = '"' ∨ c = '\\' then some (.escapeSequence ['\\', c], s) else none
  | _ => none

/-- What `double_quote_body_text` takes. -/
def doubleQuoteBodyText : List Char → List Char × List Char
  | [] => ([], [])
  | c :: s =>
    if c = '"' ∨ (doubleQuotedEscapeSequence (P := P) (A := A) (c :: s)).isSome = true ∨
        (dollarSignWordPiece R (c :: s)).isSome = true then ([], c :: s)
    else
      let (text, rest) := doubleQuoteBodyText s
      (c :: text, rest)

def doubleQuotedWordPiece : Peg.Rule Char (WordPiece P A) := fun s =>
  match dollarSignWordPiece R s with
  | some r => some r
  | none =>
    match doubleQuotedEscapeSequence s with
    | some r => some r
    | none =>
      match doubleQuoteBodyText R s with
      | ([], _) => none
      | (text, rest) => some (.text text, rest)

/-- What `double_quoted_sequence` takes behind its opening quote. -/
def doubleQuotedRest (s : List Char) : Option (List (WordPiece P A) × List Char) :=
  match Peg.many (doubleQuotedWordPiece R) s.length s with
  | (pieces, '"' :: rest) => some (pieces, rest)
  | _ => none

def singleQuotedRest : List Char → Option (List Char × List Char)
  | [] => none
  | c :: s =>
    if c = '\'' then some ([], s) else (singleQuotedRest s).map fun (t, rest) => (c :: t, rest)

/-- What `ansi_c_quoted_text` takes behind its opening quote. -/
def ansiCQuotedRest : List Char → Option (List Char × List Char)
  | [] => none
  | '\\' :: '\\' :: s => (ansiCQuotedRest s).map fun (t, rest) => ('\\' :: '\\' :: t, rest)
  | '\\' :: '\'' :: s => (ansiCQuotedRest s).map fun (t, rest) => ('\\' :: '\'' :: t, rest)
  | c :: s =>
    if c = '\'' then some ([], s) else (ansiCQuotedRest s).map fun (t, rest) => (c :: t, rest)

def normalEscapeSequence : Peg.Rule Char (WordPiece P A)
  | '\\' :: c :: s => some (.escapeSequence ['\\', c], s)
  | _ => none

/-- What `unquoted_literal_text` takes, up to where a rule stops it. -/
def unquotedLiteralText (stop : List Char → Bool) : List Char → List Char × List Char
  | [] => ([], [])
  | c :: s =>
    if stop (c :: s) = true ∨ (c = '\\' ∧ s ≠ []) ∨ c = '\'' ∨ c = '"' ∨ c = '$' ∨ c = '`' then
      ([], c :: s)
    else
      let (text, rest) := unquotedLiteralText stop s
      (c :: text, rest)

/-- `word_piece`, not in a command. -/
def wordPiece (stop : List Char → Bool) : Peg.Rule Char (WordPiece P A)
  | [] => none
  | c :: s =>
    if c = '"' then (doubleQuotedRest R s).map fun (ps, rest) => (.doubleQuotedSequence ps, rest)
    else if c = '\'' then (singleQuotedRest s).map fun (t, rest) => (.singleQuotedText t, rest)
    else
      match (if c = '$' ∧ s.head? = some '\'' then ansiCQuotedRest s.tail else none) with
      | some (t, rest) => some (.ansiCQuotedText t, rest)
      | none =>
        match (if c = '$' ∧ s.head? = some '"' then doubleQuotedRest R s.tail else none) with
        | some (ps, rest) => some (.gettextDoubleQuotedSequence ps, rest)
        | none =>
          match dollarSignWordPiece R (c :: s) with
          | some r => some r
          | none =>
            match normalEscapeSequence (c :: s) with
            | some r => some r
            | none =>
              match unquotedLiteralText stop (c :: s) with
              | ([], _) => none
              | (text, rest) => some (.text text, rest)

/-! ## Words -/

def tildeTerminator : List Char → Bool
  | [] => true
  | c :: _ => ['/', ':', ';', '\x7d'].contains c

/-- `portable_filename_char`. -/
def isPortableFilenameChar (c : Char) : Bool :=
  c.isUpper || c.isLower || c.isDigit || ['.', '_', '-'].contains c

/-- `n.parse::<usize>()`, of digits. -/
def parseUsize (digits : List Char) : Option Nat :=
  let n := digits.foldl (fun n c => n * 10 + (c.toNat - '0'.toNat)) 0
  if digits ≠ [] ∧ n < 2 ^ 64 then some n else none

def terminated (e : TildeExpr) (s : List Char) : Option (TildeExpr × List Char) :=
  if tildeTerminator s then some (e, s) else none

def tildeNumber (e : Option Nat → TildeExpr) (s : List Char) : Option (TildeExpr × List Char) :=
  terminated (e (parseUsize (s.takeWhile Char.isDigit))) (s.dropWhile Char.isDigit)

def tildeUser (s : List Char) : Option (TildeExpr × List Char) :=
  terminated (.userHome (s.takeWhile isPortableFilenameChar)) (s.dropWhile isPortableFilenameChar)

def tildeExpression (s : List Char) : Option (TildeExpr × List Char) :=
  terminated .home s <|>
    (match s with
      | '+' :: t =>
        terminated .workingDir t <|> tildeNumber (.nthDirFromTopOfDirStack · true) t
      | _ => tildeNumber (.nthDirFromTopOfDirStack · false) s) <|>
    (match s with
      | '-' :: t => terminated .oldWorkingDir t <|> tildeNumber .nthDirFromBottomOfDirStack t
      | _ => none) <|>
    tildeUser s

def tildeExprPrefix : List Char → Option (TildeExpr × List Char)
  | '~' :: s => tildeExpression s
  | _ => none

/-- What reading a word comes to. -/
inductive Reading (β : Type)
  | pieces (ps : List β)
  | fails
  | panics

/-- `word`, of the whole of a text. -/
def unexpandedWord (s : List Char) : Reading (WordPiece P A) :=
  match tildeExprPrefix s with
  | some (e, rest) =>
    if e.panics then .panics
    else
      match Peg.many (wordPiece R fun _ => false) rest.length rest with
      | (ps, []) => .pieces (.tildeExpansion e :: ps)
      | _ => .fails
  | none =>
    match Peg.many (wordPiece R fun _ => false) s.length s with
    | (ps, []) => .pieces ps
    | _ => .fails

def IsTildeName (name : List Char) : Prop :=
  (∀ c ∈ name, isPortableFilenameChar c = true) ∨
    ∃ digits, name = '+' :: digits ∧ ∀ c ∈ digits, c.isDigit = true

theorem portable_of_digit {c : Char} (h : c.isDigit = true) : isPortableFilenameChar c = true := by
  unfold isPortableFilenameChar
  rw [h, Bool.or_true, Bool.true_or]

theorem not_portable_of_terminator {c : Char} {s : List Char} (h : tildeTerminator (c :: s) = true) :
    isPortableFilenameChar c = false := by
  simp only [tildeTerminator, List.contains_iff_mem, List.mem_cons, List.not_mem_nil, or_false] at h
  rcases h with rfl | rfl | rfl | rfl <;> rfl

theorem span_terminated {p : Char → Bool} (hp : ∀ c, p c = true → isPortableFilenameChar c = true)
    {name rest : List Char} (hname : ∀ c ∈ name, p c = true) (hrest : tildeTerminator rest = true) :
    (name ++ rest).takeWhile p = name ∧ (name ++ rest).dropWhile p = rest := by
  have hend : rest.takeWhile p = [] ∧ rest.dropWhile p = rest := by
    cases rest with
    | nil => exact ⟨rfl, rfl⟩
    | cons c s =>
      have hc : ¬ p c = true := fun h =>
        absurd ((hp c h).symm.trans (not_portable_of_terminator hrest)) (by decide)
      exact ⟨List.takeWhile_cons_of_neg hc, List.dropWhile_cons_of_neg hc⟩
  rw [List.takeWhile_append_of_pos hname, List.dropWhile_append_of_pos hname, hend.1, hend.2]
  exact ⟨List.append_nil _, rfl⟩

theorem terminated_isSome {e : TildeExpr} {s : List Char} :
    (terminated e s).isSome = tildeTerminator s := by
  unfold terminated
  cases tildeTerminator s <;> rfl

/-- **When a tilde is expanded.** -/
theorem tildeExpression_isSome_iff (s : List Char) : (tildeExpression s).isSome = true ↔
    ∃ name rest, s = name ++ rest ∧ IsTildeName name ∧ tildeTerminator rest = true := by
  have hdigits : ∀ t : List Char, ∀ c ∈ t.takeWhile Char.isDigit, c.isDigit = true :=
    fun t c hc => List.mem_takeWhile_imp hc
  have hsplit : ∀ t : List Char, t = t.takeWhile Char.isDigit ++ t.dropWhile Char.isDigit :=
    fun t => List.takeWhile_append_dropWhile.symm
  constructor
  · intro h
    unfold tildeExpression at h
    simp only [Option.orElse_eq_orElse, Option.orElse_eq_or, Option.isSome_or, Bool.or_eq_true] at h
    rcases h with h | h | h | h
    · exact ⟨[], s, rfl, .inl nofun, terminated_isSome ▸ h⟩
    · split at h
      · next t =>
        rw [Option.isSome_or, Bool.or_eq_true] at h
        rcases h with h | h
        · exact ⟨['+'], t, rfl, .inr ⟨[], rfl, nofun⟩, terminated_isSome ▸ h⟩
        · refine ⟨'+' :: t.takeWhile Char.isDigit, t.dropWhile Char.isDigit, ?_,
            .inr ⟨_, rfl, hdigits t⟩, terminated_isSome ▸ h⟩
          rw [List.cons_append, ← hsplit]
      · exact ⟨_, _, hsplit s, .inl fun c hc => portable_of_digit (hdigits s c hc),
          terminated_isSome ▸ h⟩
    · split at h
      · next t =>
        rw [Option.isSome_or, Bool.or_eq_true] at h
        rcases h with h | h
        · exact ⟨['-'], t, rfl, .inl (by simp; decide), terminated_isSome ▸ h⟩
        · refine ⟨'-' :: t.takeWhile Char.isDigit, t.dropWhile Char.isDigit, ?_,
            .inl (List.forall_mem_cons.2 ⟨by decide, fun c hc =>
              portable_of_digit (hdigits t c hc)⟩), terminated_isSome ▸ h⟩
          rw [List.cons_append, ← hsplit]
      · cases h
    · exact ⟨_, _, List.takeWhile_append_dropWhile.symm, .inl fun c hc => List.mem_takeWhile_imp hc,
        terminated_isSome ▸ h⟩
  · rintro ⟨name, rest, rfl, hname | ⟨digits, rfl, hd⟩, hrest⟩
    · have huser : (tildeUser (name ++ rest)).isSome = true := by
        obtain ⟨-, hdrop⟩ := span_terminated (fun _ h => h) hname hrest
        rw [tildeUser, terminated_isSome, hdrop, hrest]
      unfold tildeExpression
      simp only [Option.orElse_eq_orElse, Option.orElse_eq_or, Option.isSome_or, huser,
        Bool.or_true]
    · have hnumber : (tildeNumber (.nthDirFromTopOfDirStack · true) (digits ++ rest)).isSome = true := by
        obtain ⟨-, hdrop⟩ := span_terminated (fun _ h => portable_of_digit h) hd hrest
        rw [tildeNumber, terminated_isSome, hdrop, hrest]
      unfold tildeExpression
      simp only [Option.orElse_eq_orElse, Option.orElse_eq_or, Option.isSome_or, List.cons_append,
        hnumber, Bool.or_true, Bool.true_or]

/-! ## Brace expressions -/

/-- `BraceExpressionOrText`. -/
inductive BracePiece (B : Type)
  | expr (e : B)
  | text (s : List Char)

def braceExpr : Peg.Rule Char B
  | [] => none
  | c :: s => if c = '\x7b' then R.brace.rule (c :: s) else none

def opensBrace (s : List Char) : Bool := s.head? == some '\x7b'

/-- `non_brace_expr_text`: what it takes off its input. -/
def nonBraceExprText (stop : List Char → Bool) : Peg.Rule Char (List Char)
  | [] => none
  | c :: s =>
    if c = '\x7b' then
      if (braceExpr R (c :: s)).isNone ∧ stop (c :: s) = false then some ([c], s) else none
    else
      (wordPiece R (fun t => opensBrace t || stop t) (c :: s)).map fun (_, rest) =>
        ((c :: s).take ((c :: s).length - rest.length), rest)

def braceExpansionPiece (stop : List Char → Bool) : Peg.Rule Char (BracePiece B) := fun s =>
  match braceExpr R s with
  | some (e, rest) => some (.expr e, rest)
  | none =>
    match Peg.many (nonBraceExprText R stop) s.length s with
    | ([], _) => none
    | (texts, rest) => some (.text texts.flatten, rest)

/-- `brace_expansions`, of the whole of a text: nothing where there is no piece at all. -/
def braceExpansions (s : List Char) : Reading (BracePiece B) :=
  match Peg.many (braceExpansionPiece R fun _ => false) s.length s with
  | ([], _) => .pieces []
  | (ps, []) => .pieces ps
  | _ => .fails

/-- The loop of `may_contain_braces_to_expand`. -/
def mayContainLoop : (lastWasUnescapedDollarSign lastWasEscape sawOpeningBrace : Bool) →
    List Char → Bool
  | _, _, _, [] => false
  | dollar, escape, opening, c :: s =>
    if dollar = false ∧ c = '\x7d' ∧ opening = true then true
    else mayContainLoop (!escape && c == '$') (c == '\\')
      (opening || (!dollar && c == '\x7b')) s

def mayContainBracesToExpand (s : List Char) : Bool := mayContainLoop false false false s

end Seahaven.Parser
