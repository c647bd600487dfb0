import Seahaven.Lossy
import Mathlib.Algebra.Order.Ring.Nat

/-!
# Escape sequences and quoting

`escape.rs`: what expands the escape sequences of `$'…'` and of `echo`, and what writes a text so
that it reads as one word.

1. `escape` is what follows one backslash. `expandBackslashEscapes` goes over a text.
2. `quote` chooses among the ways to write a text; `forceQuote` and `quoteIfNeeded` call it.
-/

namespace Seahaven.Shell

/-! ## Escape sequences -/

inductive EscapeExpansionMode
  | echoBuiltin
  | ansiCQuotes
  deriving DecidableEq

/-- A text that is no number of its type. -/
inductive EscapeError
  | intParse (s : List Char) (radix : Nat)
  deriving DecidableEq

def digitValue (c : Char) : Nat :=
  if c.isDigit then c.toNat - '0'.toNat
  else if 'a' ≤ c ∧ c ≤ 'f' then c.toNat - 'a'.toNat + 10
  else c.toNat - 'A'.toNat + 10

def isOctalDigit (c : Char) : Bool := '0' ≤ c && c ≤ '7'

/-- `is_ascii_hexdigit`. -/
def isHexDigit (c : Char) : Bool :=
  c.isDigit || ('a' ≤ c && c ≤ 'f') || ('A' ≤ c && c ≤ 'F')

def numberOf (radix : Nat) (digits : List Char) : Nat :=
  digits.foldl (fun n c => n * radix + digitValue c) 0

/-- `int_utils::parse`, of digits, for an unsigned type of so many bits. -/
def parseUnsigned (bits radix : Nat) (digits : List Char) : Except EscapeError Nat :=
  if numberOf radix digits < 2 ^ bits then .ok (numberOf radix digits)
  else .error (.intParse digits radix)

/-- `take_while_ref`, of so many characters at most. -/
def takeDigits (p : Char → Bool) : Nat → List Char → List Char × List Char
  | 0, s => ([], s)
  | _, [] => ([], [])
  | n + 1, c :: s =>
    if p c then
      let (digits, rest) := takeDigits p n s
      (c :: digits, rest)
    else ([], c :: s)

/-- What the loop of `\x` reads: the digits, whether it read an opening brace, and what is left. -/
structure Hexits where
  digits : List Char
  braced : Bool
  rest : List Char

/-- The loop of `\x`. -/
def takeHexits (mode : EscapeExpansionMode) (h : Hexits) (invalidPrefix : Bool) :
    List Char → Hexits
  | [] => { h with rest := [] }
  | c :: s =>
    if mode = .ansiCQuotes ∧ h.braced = false ∧ c = '\x7b' then
      takeHexits mode { h with braced := true } invalidPrefix s
    else if h.braced = true ∧ c = '\x7d' then { h with rest := s }
    else if ((h.braced = true ∧ invalidPrefix = false) ∨
        (h.braced = false ∧ h.digits.length < 2)) ∧ isHexDigit c = true then
      takeHexits mode { h with digits := h.digits ++ [c] } invalidPrefix s
    else if h.braced = true ∧ h.digits = [] then takeHexits mode h true s
    else { h with rest := c :: s }

/-- What an escape sequence comes to: bytes, with what is left of the text, or the end. -/
inductive Escaped
  | bytes (b : List UInt8) (rest : List Char)
  | stop
  deriving DecidableEq

def unexpanded (c : Char) : List UInt8 := '\\'.toUInt8 :: String.utf8EncodeChar c

def decodedOr (c : Char) (n : Nat) : List UInt8 :=
  if n.isValidChar then String.utf8EncodeChar (Char.ofNat n) else unexpanded c

/-- `\u` and `\U`, of so many digits. -/
def unicodeEscape (cmd : Char) (digits bits : Nat) (s : List Char) : Except EscapeError Escaped :=
  match takeDigits isHexDigit digits s with
  | ([], rest) => .ok (.bytes (unexpanded cmd) rest)
  | (hex, rest) => (parseUnsigned bits 16 hex).map fun n => .bytes (decodedOr cmd n) rest

/-- The control transformation of `\c`, on the first byte. -/
def controlBytes (c : Char) : List UInt8 :=
  match String.utf8EncodeChar (if 'a' ≤ c ∧ c ≤ 'z' then c.toUpper else c) with
  | [] => []
  | b :: rest => (if b = '?'.toUInt8 then 0x7F else b &&& 0x1F) :: rest

/-- `\c` in ANSI-C quotes. -/
def controlEscape : List Char → Escaped
  | [] => .bytes (unexpanded 'c') []
  | c :: s =>
    .bytes (controlBytes c) (if c = '\\' ∧ s.head? = some '\\' then s.tail else s)

/-- What follows a backslash. -/
def escape (mode : EscapeExpansionMode) (cmd : Char) (s : List Char) :
    Except EscapeError Escaped :=
  if cmd = 'a' then .ok (.bytes [0x07] s)
  else if cmd = 'b' then .ok (.bytes [0x08] s)
  else if cmd = 'c' then
    match mode with
    | .echoBuiltin => .ok .stop
    | .ansiCQuotes => .ok (controlEscape s)
  else if cmd = 'e' ∨ cmd = 'E' then .ok (.bytes [0x1B] s)
  else if cmd = 'f' then .ok (.bytes [0x0C] s)
  else if cmd = 'n' then .ok (.bytes [0x0A] s)
  else if cmd = 'r' then .ok (.bytes [0x0D] s)
  else if cmd = 't' then .ok (.bytes [0x09] s)
  else if cmd = 'v' then .ok (.bytes [0x0B] s)
  else if cmd = '\\' then .ok (.bytes ['\\'.toUInt8] s)
  else if mode = .ansiCQuotes ∧ (cmd = '\'' ∨ cmd = '"' ∨ cmd = '?') then
    .ok (.bytes [cmd.toUInt8] s)
  else if cmd = '0' then
    let (octal, rest) := takeDigits isOctalDigit 3 s
    (parseUnsigned 8 8 octal).map fun n => .bytes [UInt8.ofNat n] rest
  else if cmd = 'x' then
    let h := takeHexits mode ⟨[], false, []⟩ false s
    if h.digits = [] then .ok (.bytes (if h.braced then [0] else unexpanded cmd) h.rest)
    else (parseUnsigned 32 16 h.digits).map fun n => .bytes [UInt8.ofNat n] h.rest
  else if cmd = 'u' then unicodeEscape cmd 4 16 s
  else if cmd = 'U' then unicodeEscape cmd 8 32 s
  else if mode = .ansiCQuotes ∧ isOctalDigit cmd = true then
    let (octal, rest) := takeDigits isOctalDigit 2 s
    (parseUnsigned 8 8 (cmd :: octal)).map fun n => .bytes [UInt8.ofNat n] rest
  else .ok (.bytes (unexpanded cmd) s)

/-- The bytes of a text with its escape sequences expanded, and whether it was read to its end. A
round takes one character at least. -/
def expandLoop (mode : EscapeExpansionMode) : Nat → List Char →
    Except EscapeError (List UInt8 × Bool)
  | 0, _ => .ok ([], true)
  | _, [] => .ok ([], true)
  | fuel + 1, c :: s =>
    if c = '\\' then
      match s with
      | [] => .ok (['\\'.toUInt8], true)
      | cmd :: s =>
        match escape mode cmd s with
        | .error e => .error e
        | .ok .stop => .ok ([], false)
        | .ok (.bytes b rest) => (expandLoop mode fuel rest).map fun (r, all) => (b ++ r, all)
    else (expandLoop mode fuel s).map fun (r, all) => (String.utf8EncodeChar c ++ r, all)

/-- `expand_backslash_escapes`: in ANSI-C quotes the result ends before the first NUL. -/
def expandBackslashEscapes (s : List Char) (mode : EscapeExpansionMode) :
    Except EscapeError (List UInt8 × Bool) :=
  (expandLoop mode s.length s).map fun (bytes, all) =>
    match mode, all with
    | .ansiCQuotes, true => (bytes.takeWhile (· ≠ 0), true)
    | _, _ => (bytes, all)

/-! ## Quoting -/

inductive QuoteMode
  | singleQuote
  | doubleQuote
  | backslashEscape
  deriving DecidableEq

structure QuoteOptions where
  alwaysQuote : Bool := false
  preferredMode : QuoteMode := .singleQuote
  avoidAnsiCQuotingNewline : Bool := false

def needsEscaping (c : Char) : Bool :=
  ['(', ')', '[', ']', '\x7b', '\x7d', '$', '*', '?', '|', '&', ';', '<', '>', '`', '\\', '"', '!',
    '^', ',', ' ', '\''].contains c

/-- `is_ascii_control`. -/
def needsAnsiCQuoting (c : Char) : Bool := c.toNat < 0x20 || c.toNat == 0x7F

def backslashEscape (s : List Char) : List Char :=
  if s = [] then ['\'', '\'']
  else s.flatMap fun c => if needsEscaping c then ['\\', c] else [c]

def quotedPart (part : List Char) : List Char :=
  if part = [] then [] else '\'' :: (part ++ ['\''])

def singleQuote (s : List Char) : List Char :=
  if s = [] then ['\'', '\'']
  else List.intercalate ['\\', '\''] ((s.splitOn '\'').map quotedPart)

def doubleQuote (s : List Char) : List Char :=
  '"' :: (s.flatMap fun c =>
    if c = '$' ∨ c = '`' ∨ c = '"' ∨ c = '\\' then ['\\', c] else [c]) ++ ['"']

def octalDigit (n : Nat) : Char := Char.ofNat ('0'.toNat + n % 8)

/-- `{:03o}`, of a value below 512. -/
def threeOctalDigits (n : Nat) : List Char := [octalDigit (n / 64), octalDigit (n / 8), octalDigit n]

/-- How a character is written between ANSI-C quotes. -/
def ansiCChar (c : Char) : List Char :=
  if c = '\x07' then ['\\', 'a']
  else if c = '\x08' then ['\\', 'b']
  else if c = '\x1b' then ['\\', 'E']
  else if c = '\x0c' then ['\\', 'f']
  else if c = '\n' then ['\\', 'n']
  else if c = '\r' then ['\\', 'r']
  else if c = '\t' then ['\\', 't']
  else if c = '\x0b' then ['\\', 'v']
  else if c = '\\' then ['\\', '\\']
  else if c = '\'' then ['\\', '\'']
  else if needsAnsiCQuoting c then '\\' :: threeOctalDigits c.toNat
  else [c]

def ansiCQuote (s : List Char) : List Char := '$' :: '\'' :: s.flatMap ansiCChar ++ ['\'']

def quote (s : List Char) (o : QuoteOptions) : List Char :=
  if s.any fun c => needsAnsiCQuoting c && (!o.avoidAnsiCQuotingNewline || c != '\n') then
    ansiCQuote s
  else if o.alwaysQuote || s.isEmpty || s.any needsEscaping then
    match o.preferredMode with
    | .backslashEscape => backslashEscape s
    | .singleQuote => singleQuote s
    | .doubleQuote => doubleQuote s
  else s

def forceQuote (s : List Char) (mode : QuoteMode) : List Char :=
  quote s { alwaysQuote := true, preferredMode := mode }

def quoteIfNeeded (s : List Char) (mode : QuoteMode) : List Char :=
  quote s { alwaysQuote := false, preferredMode := mode }

end Seahaven.Shell
