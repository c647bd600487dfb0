import Seahaven.Parser.Token
import Seahaven.Shell.AnsiQuote
import Seahaven.Shell.ReadFields

/-!
# Reading lines with `read`

`read` takes its input byte by byte. Two bytes stand for keys, the other control characters that are
no whitespace are ignored, and without `-r` a backslash is pending until the next character.

1. `readLineLoop`: the loop, `ReadCommand.execute` around it.
2. `kept`: what a call keeps of the characters it reads.
3. `transcript`: what repeated calls yield; `readText_eq`: they come to an end.
4. `TakesNext`: what one call with a limit takes.
-/

namespace Seahaven.ReadLine

open Seahaven.Parser

/-! ## Events -/

/-- The event of a byte of the input. -/
inductive InputEvent
  | char (ch : Char)
  | ctrlC
  | ctrlD
  deriving DecidableEq

abbrev ctrlC : Char := '\x03'

abbrev ctrlD : Char := '\x04'

def byteEvent (b : UInt8) : InputEvent :=
  let ch := Char.ofNat b.toNat
  if ch = ctrlC then .ctrlC
  else if ch = ctrlD then .ctrlD
  else .char ch

/-! ## The loop -/

/-- The outcome of a read. -/
inductive ReadResult
  | line (line : List Char)
  | eof (line : Option (List Char))
  | interrupted
  | timedOut (line : Option (List Char))
  deriving DecidableEq

structure LineReaderConfig where
  /-- The character that ends the input. -/
  delimiter : Option Char
  charLimit : Option ℕ
  processEscapes : Bool

structure LineState where
  line : List Char
  pendingBackslash : Bool

def nonEmpty (line : List Char) : Option (List Char) := if line = [] then none else some line

/-- `line.len()`. -/
def byteLength (line : List Char) : ℕ := (line.map Char.utf8Size).sum

def pushChar (config : LineReaderConfig) (st : LineState) (ch : Char) : ReadResult ⊕ LineState :=
  let line := st.line ++ [ch]
  if config.charLimit.any (· ≤ byteLength line) then .inl (.line line)
  else .inr { st with line }

def isIgnored (ch : Char) : Bool :=
  (ch.toNat < 0x20 || ch.toNat = 0x7F) && !isAsciiWhitespace ch

/-- A character. -/
def onChar (config : LineReaderConfig) (st : LineState) (ch : Char) : ReadResult ⊕ LineState :=
  if config.processEscapes && st.pendingBackslash then
    -- A backslash and the delimiter continue the line.
    if config.delimiter = some ch then .inr { st with pendingBackslash := false }
    else pushChar config { st with pendingBackslash := false } ch
  else if config.processEscapes && ch = '\\' then .inr { st with pendingBackslash := true }
  else if config.delimiter = some ch then .inl (.line st.line)
  else if isIgnored ch then .inr st
  else pushChar config st ch

def onEvent (config : LineReaderConfig) (st : LineState) : InputEvent → ReadResult ⊕ LineState
  | .ctrlC => .inl .interrupted
  | .ctrlD =>
    .inl (if st.line = [] ∧ st.pendingBackslash = false then .eof none else .line st.line)
  | .char ch => onChar config st ch

/-- The loop of `read_line_with_reader`, and what it leaves of the input. A deadline is the number
of bytes that are there before it. -/
def readLineLoop (config : LineReaderConfig) :
    Option ℕ → LineState → List UInt8 → ReadResult × List UInt8
  -- A pending backslash is kept on a timeout and lost at the end of the input.
  | some 0, st, input =>
    (.timedOut (nonEmpty (if st.pendingBackslash then st.line ++ ['\\'] else st.line)), input)
  | _, st, [] => (.eof (nonEmpty st.line), [])
  | deadline, st, b :: rest =>
    match onEvent config st (byteEvent b) with
    | .inl result => (result, rest)
    | .inr st => readLineLoop config (deadline.map (· - 1)) st rest

/-! ## The command -/

structure ReadCommand where
  arrayVariable : Option (List Char)
  delimiter : Option (List Char)
  returnAfterNChars : Option ℕ
  returnAfterNCharsNoDelimiter : Option ℕ
  rawMode : Bool
  variableNames : List (List Char)

/-- The delimiter: none with `-N`, NUL for an empty one. -/
def ReadCommand.lineDelimiter (cmd : ReadCommand) : Option Char :=
  if cmd.returnAfterNCharsNoDelimiter.isSome then none
  else
    match cmd.delimiter with
    | some [] => some '\x00'
    | some (c :: _) => some c
    | none => some '\n'

def ReadCommand.config (cmd : ReadCommand) : LineReaderConfig where
  delimiter := cmd.lineDelimiter
  charLimit := cmd.returnAfterNCharsNoDelimiter.or cmd.returnAfterNChars
  processEscapes := !cmd.rawMode

def ReadCommand.readLine (cmd : ReadCommand) (deadline : Option ℕ) (input : List UInt8) :
    ReadResult × List UInt8 :=
  readLineLoop cmd.config deadline ⟨[], false⟩ input

def ReadResult.outcome : ReadResult → Option (List Char) × ℕ
  | .line l => (some l, 0)
  | .eof (some l) => (some l, 1)
  | .eof none | .interrupted => (none, 1)
  | .timedOut l => (l, 142)

/-- What `read` assigns. -/
inductive Assigned
  | array (name : List Char) (fields : List (List Char))
  | named (values : List (List Char × List Char))
  | reply (value : List Char)
  deriving DecidableEq

/-- `build_array_fields` and `build_variable_fields`. -/
def buildFields (inputLine : Option (List Char)) (ifs : List Char) (skipIfsSplitting : Bool)
    (maxFields : Option ℕ) : List (List Char) :=
  match inputLine with
  | none => []
  | some line => if skipIfsSplitting then [line] else splitLineByIfs ifs line maxFields

/-- `assign_input_to_variables`. -/
def ReadCommand.assign (cmd : ReadCommand) (ifs : List Char) (inputLine : Option (List Char)) :
    Assigned :=
  let skip := cmd.returnAfterNCharsNoDelimiter.isSome
  match cmd.arrayVariable with
  | some name => .array name (buildFields inputLine ifs skip none)
  | none =>
    if cmd.variableNames = [] then .reply (inputLine.getD [])
    else
      let count := cmd.variableNames.length
      .named (cmd.variableNames.zip
        (namedValues (buildFields inputLine ifs skip (some count)) count))

/-- What one call does. -/
structure Call where
  assigned : Assigned
  status : ℕ
  rest : List UInt8
  deriving DecidableEq

def ReadCommand.execute (cmd : ReadCommand) (ifs : List Char) (deadline : Option ℕ)
    (input : List UInt8) : Call :=
  let (result, rest) := cmd.readLine deadline input
  ⟨cmd.assign ifs result.outcome.1, result.outcome.2, rest⟩

def Assigned.value : Assigned → List Char
  | .array _ fields => fields.headD []
  | .named values => ((values.map Prod.snd).headD [])
  | .reply value => value

/-- Repeated calls until one answers other than zero: the values before it, and its value. -/
def ReadCommand.readAll (cmd : ReadCommand) :
    ℕ → List UInt8 → Option (List (List Char) × List Char)
  | 0, _ => none
  | fuel + 1, input =>
    let call := cmd.execute [] none input
    if call.status = 0 then
      (cmd.readAll fuel call.rest).map fun (lines, last) => (call.assigned.value :: lines, last)
    else some ([], call.assigned.value)

def ReadCommand.readText (cmd : ReadCommand) (input : List UInt8) : Option (List Char) :=
  (cmd.readAll (input.length + 1) input).map fun (lines, last) =>
    ['\n'].intercalate (lines ++ [last])

example : (ReadCommand.readText ⟨none, none, none, none, true, []⟩
    [0x61, 0x01, 0x0A, 0x62, 0x0A, 0x63]) = some "a\nb\nc".toList := by decide

example : (ReadCommand.readText ⟨none, none, none, none, false, []⟩
    [0x61, 0x5C, 0x0A, 0x62, 0x04, 0x63, 0x5C]) = some "ab\nc".toList := by decide

/-! ## What is kept -/

def encode (s : List Char) : List UInt8 := s.flatMap String.utf8EncodeChar

def IsAscii (s : List Char) : Prop := ∀ c ∈ s, c.toNat < 0x80

def isKey (c : Char) : Bool := c = ctrlC || c = ctrlD

def KeyFree (s : List Char) : Prop := ∀ c ∈ s, isKey c = false

def resolve : List Char → List Char
  | [] => []
  | '\\' :: [] => []
  | '\\' :: c :: s => if c = '\n' then resolve s else c :: resolve s
  | c :: s => if isIgnored c then resolve s else c :: resolve s

def endsPending : List Char → Bool
  | [] => false
  | '\\' :: [] => true
  | '\\' :: _ :: s => endsPending s
  | _ :: s => endsPending s

def kept (raw : Bool) (s : List Char) : List Char :=
  if raw then s.filter (!isIgnored ·) else resolve s

theorem kept_raw (s : List Char) : kept true s = s.filter (!isIgnored ·) := rfl

def pendingAfter (raw : Bool) (s : List Char) : Bool := !raw && endsPending s

def fullLines (s : List Char) : List Char := s.rdropWhile (· ≠ '\n')

def lastLine (s : List Char) : List Char := s.rtakeWhile (· ≠ '\n')

theorem encode_cons (c : Char) (s : List Char) :
    encode (c :: s) = String.utf8EncodeChar c ++ encode s := List.flatMap_cons

theorem encode_append (s t : List Char) : encode (s ++ t) = encode s ++ encode t :=
  List.flatMap_append

variable {c : Char}

theorem encode_low (hc : c.toNat < 0x80) (s : List Char) :
    encode (c :: s) = UInt8.ofNat c.toNat :: encode s := by
  rw [encode_cons, Shell.encode_low hc]
  rfl

theorem byteEvent_low (hc : c.toNat < 0x80) : byteEvent (UInt8.ofNat c.toNat) =
    if c = ctrlC then .ctrlC else if c = ctrlD then .ctrlD else .char c := by
  have hback : Char.ofNat (UInt8.ofNat c.toNat).toNat = c := by
    rw [UInt8.toNat_ofNat', Nat.mod_eq_of_lt (by omega), Char.ofNat_toNat]
  unfold byteEvent
  rw [hback]

theorem byteEvent_char (hc : c.toNat < 0x80) (hkey : isKey c = false) :
    byteEvent (UInt8.ofNat c.toNat) = .char c := by
  unfold isKey at hkey
  rw [Bool.or_eq_false_iff, decide_eq_false_iff_not, decide_eq_false_iff_not] at hkey
  rw [byteEvent_low hc, if_neg hkey.1, if_neg hkey.2]

theorem fullLines_append (s t : List Char) :
    fullLines (s ++ '\n' :: t) = s ++ '\n' :: fullLines t := by
  unfold fullLines
  induction t using List.reverseRecOn with
  | nil => exact List.rdropWhile_concat_neg _ _ _ (by decide)
  | append_singleton t x ih =>
    have hassoc : s ++ '\n' :: (t ++ [x]) = (s ++ '\n' :: t) ++ [x] := by simp
    rw [hassoc, List.rdropWhile_concat, List.rdropWhile_concat, ih]
    split_ifs
    · rfl
    · exact hassoc.symm

theorem lastLine_append (s t : List Char) : lastLine (s ++ '\n' :: t) = lastLine t := by
  unfold lastLine
  induction t using List.reverseRecOn with
  | nil => rw [List.rtakeWhile_concat_neg _ _ _ (by decide), List.rtakeWhile_nil]
  | append_singleton t x ih =>
    rw [show s ++ '\n' :: (t ++ [x]) = (s ++ '\n' :: t) ++ [x] by simp, List.rtakeWhile_concat,
      List.rtakeWhile_concat, ih]

theorem fullLines_of_line {s : List Char} (hs : '\n' ∉ s) : fullLines s = [] :=
  List.rdropWhile_eq_nil_iff.2 fun _ hx => decide_eq_true fun he => hs (he ▸ hx)

theorem lastLine_of_line {s : List Char} (hs : '\n' ∉ s) : lastLine s = s :=
  List.rtakeWhile_eq_self_iff.2 fun _ hx => decide_eq_true fun he => hs (he ▸ hx)

theorem fullLines_lastLine (s : List Char) : fullLines s ++ lastLine s = s :=
  List.rdropWhile_append_rtakeWhile

/-! ## Repeated calls -/

/-- What is left to yield within a call, and in the calls behind it. -/
def transcript (config : LineReaderConfig) : LineState → List UInt8 → List Char
  | st, [] => st.line
  | st, b :: rest =>
    match onEvent config st (byteEvent b) with
    | .inr st => transcript config st rest
    | .inl result =>
      if result.outcome.2 = 0 then
        result.outcome.1.getD [] ++ '\n' :: transcript config ⟨[], false⟩ rest
      else result.outcome.1.getD []

theorem loop_none_nil (config : LineReaderConfig) (st : LineState) :
    readLineLoop config none st [] = (.eof (nonEmpty st.line), []) := rfl

theorem loop_none_cons (config : LineReaderConfig) (st : LineState) (b : UInt8)
    (rest : List UInt8) : readLineLoop config none st (b :: rest) =
      match onEvent config st (byteEvent b) with
      | .inl result => (result, rest)
      | .inr st => readLineLoop config none st rest := rfl

theorem outcome_eof (line : List Char) : (ReadResult.eof (nonEmpty line)).outcome.2 = 1 ∧
    (ReadResult.eof (nonEmpty line)).outcome.1.getD [] = line := by
  unfold nonEmpty
  split_ifs with h
  · exact ⟨rfl, h.symm⟩
  · exact ⟨rfl, rfl⟩

theorem transcript_eq (config : LineReaderConfig) (input : List UInt8) (st : LineState) :
    let r := readLineLoop config none st input
    transcript config st input =
      if r.1.outcome.2 = 0 then r.1.outcome.1.getD [] ++ '\n' :: transcript config ⟨[], false⟩ r.2
      else r.1.outcome.1.getD [] := by
  induction input generalizing st with
  | nil =>
    dsimp only
    rw [loop_none_nil, (outcome_eof st.line).1, (outcome_eof st.line).2]
    rfl
  | cons b rest ih =>
    dsimp only
    rw [loop_none_cons, transcript]
    cases onEvent config st (byteEvent b) with
    | inl result => rfl
    | inr st' => exact ih st'

theorem loop_rest_lt (config : LineReaderConfig) (input : List UInt8) (st : LineState)
    (h : (readLineLoop config none st input).1.outcome.2 = 0) :
    (readLineLoop config none st input).2.length < input.length := by
  induction input generalizing st with
  | nil =>
    rw [loop_none_nil, (outcome_eof st.line).1] at h
    exact absurd h (by decide)
  | cons b rest ih =>
    rw [loop_none_cons] at h ⊢
    revert h
    cases onEvent config st (byteEvent b) with
    | inl result => exact fun _ => Nat.lt_succ_self _
    | inr st' => exact fun h => (ih st' h).trans (Nat.lt_succ_self _)

/-- `read`, possibly with `-r`, into one variable. -/
def plainRead (raw : Bool) (name : Option (List Char)) : ReadCommand :=
  ⟨none, none, none, none, raw, name.toList⟩

theorem splitLineByIfs_nil (line : List Char) :
    splitLineByIfs [] line (some 1) = if line = [] then [] else [line] := by
  have hblank : isIfsWhitespace [] = fun _ => false := by
    funext c
    simp [isIfsWhitespace]
  have htrim : (line.dropWhile (isIfsWhitespace [])).rdropWhile (isIfsWhitespace []) = line := by
    rw [hblank, List.dropWhile_eq_self_iff.2 (by simp), List.rdropWhile_eq_self_iff.2 (by simp)]
  unfold splitLineByIfs
  rw [htrim]
  dsimp only
  split_ifs with h
  · rfl
  · rw [foldl_plain (fun c _ => by simp [Delimited.Delimiters.divides, ifsDelimiters,
      isIfsWhitespace]) _ h]
    simp [LineSplitting.finish, h]

variable {cmd : ReadCommand}

theorem value_assign (harray : cmd.arrayVariable = none)
    {name : Option (List Char)} (hname : cmd.variableNames = name.toList)
    (line : Option (List Char)) : (cmd.assign [] line).value = line.getD [] := by
  have hfields : ∀ skip, (namedValues (buildFields line [] skip (some 1)) 1).headD [] =
      line.getD [] := by
    intro skip
    cases line with
    | none => rfl
    | some line =>
      cases skip with
      | true => simp [buildFields, namedValues, List.intercalate]
      | false =>
        show (namedValues (splitLineByIfs [] line (some 1)) 1).headD [] = line
        rw [splitLineByIfs_nil]
        split_ifs with h
        · exact h.symm
        · simp [namedValues, List.intercalate]
  unfold ReadCommand.assign
  rw [harray, hname]
  cases name with
  | none => rfl
  | some name =>
    show (([name].zip (namedValues (buildFields line [] _ (some 1)) 1)).map Prod.snd).headD [] = _
    rw [← hfields cmd.returnAfterNCharsNoDelimiter.isSome]
    rfl

theorem intercalate_cons (line : List Char) {lines : List (List Char)} (h : lines ≠ []) :
    ['\n'].intercalate (line :: lines) = line ++ '\n' :: ['\n'].intercalate lines := by
  obtain ⟨l, ls, rfl⟩ := List.exists_cons_of_ne_nil h
  simp [List.intercalate]

theorem readText_eq (harray : cmd.arrayVariable = none)
    {name : Option (List Char)} (hname : cmd.variableNames = name.toList) (input : List UInt8) :
    cmd.readText input = some (transcript cmd.config ⟨[], false⟩ input) := by
  have hall : ∀ (fuel : ℕ) (input : List UInt8), input.length < fuel →
      (cmd.readAll fuel input).map (fun r => ['\n'].intercalate (r.1 ++ [r.2])) =
        some (transcript cmd.config ⟨[], false⟩ input) := by
    intro fuel
    induction fuel with
    | zero => exact fun _ h => absurd h (Nat.not_lt_zero _)
    | succ fuel ih =>
      intro input hlt
      have htext := transcript_eq cmd.config input ⟨[], false⟩
      have hrest := loop_rest_lt cmd.config input ⟨[], false⟩
      have hvalue := value_assign harray hname
        (readLineLoop cmd.config none ⟨[], false⟩ input).1.outcome.1
      rw [ReadCommand.readAll, ReadCommand.execute, ReadCommand.readLine]
      dsimp only at htext ⊢
      rw [hvalue, htext]
      split_ifs with h
      · specialize ih _ (Nat.lt_of_lt_of_le (hrest h) (Nat.le_of_lt_succ hlt))
        rw [Option.map_map]
        revert ih
        cases cmd.readAll fuel (readLineLoop cmd.config none ⟨[], false⟩ input).2 with
        | none => exact fun ih => nomatch ih
        | some r =>
          intro ih
          have hr : ['\n'].intercalate (r.1 ++ [r.2]) = _ := Option.some.inj ih
          show some (['\n'].intercalate (_ :: (r.1 ++ [r.2]))) = _
          rw [intercalate_cons _ (by simp), hr]
      · exact congrArg some (List.append_nil _)
  exact hall _ _ (Nat.lt_succ_self _)

/-! ## What calls yield of a text -/

theorem pushChar_none {config : LineReaderConfig} (hlimit : config.charLimit = none)
    (st : LineState) (c : Char) : pushChar config st c = .inr { st with line := st.line ++ [c] } := by
  unfold pushChar
  rw [hlimit]
  rfl

theorem onChar_backslash {config : LineReaderConfig} (hescapes : config.processEscapes = true)
    (line : List Char) : onChar config ⟨line, false⟩ '\\' = .inr ⟨line, true⟩ := by
  unfold onChar
  rw [hescapes]
  rfl

section Text

variable {config : LineReaderConfig} (hdelimiter : config.delimiter = some '\n')
  (hlimit : config.charLimit = none)
include hdelimiter hlimit

theorem onChar_plain (hc : c = '\\' → config.processEscapes = false)
    (line : List Char) : onChar config ⟨line, false⟩ c =
      if c = '\n' then .inl (.line line)
      else if isIgnored c then .inr ⟨line, false⟩ else .inr ⟨line ++ [c], false⟩ := by
  have hback : (config.processEscapes && decide (c = '\\')) = false := by
    by_cases h : c = '\\'
    · rw [hc h, Bool.false_and]
    · rw [decide_eq_false h, Bool.and_false]
  unfold onChar
  rw [hdelimiter, pushChar_none hlimit, hback, Bool.and_false, if_neg Bool.false_ne_true,
    if_neg Bool.false_ne_true]
  simp only [Option.some.injEq, eq_comm]

theorem onChar_escaped (hescapes : config.processEscapes = true) (line : List Char) (c : Char) :
    onChar config ⟨line, true⟩ c =
      if c = '\n' then .inr ⟨line, false⟩ else .inr ⟨line ++ [c], false⟩ := by
  unfold onChar
  rw [hdelimiter, pushChar_none hlimit, hescapes, Bool.and_self, if_pos rfl]
  simp only [Option.some.injEq, eq_comm]

end Text

/-- Of a text without keys, the lines with an end are yielded, and what stands behind them is read in
the call that goes on. -/
def Yields (config : LineReaderConfig) (raw : Bool) (input : List UInt8) (s : List Char) : Prop :=
  ∀ line, '\n' ∉ line → transcript config ⟨line, false⟩ (encode s ++ input) =
    fullLines (line ++ kept raw s) ++
      transcript config ⟨lastLine (line ++ kept raw s), pendingAfter raw s⟩ input

theorem transcript_char (config : LineReaderConfig) (st : LineState)
    (hc : c.toNat < 0x80) (hkey : isKey c = false) (s : List Char) (input : List UInt8) :
    transcript config st (encode (c :: s) ++ input) =
      match onChar config st c with
      | .inr st => transcript config st (encode s ++ input)
      | .inl result =>
        if result.outcome.2 = 0 then
          result.outcome.1.getD [] ++ '\n' :: transcript config ⟨[], false⟩ (encode s ++ input)
        else result.outcome.1.getD [] := by
  rw [encode_low hc, List.cons_append, transcript, byteEvent_char hc hkey]
  rfl

theorem resolve_plain (hc : c ≠ '\\') (s : List Char) :
    resolve (c :: s) = if isIgnored c then resolve s else c :: resolve s := by
  rw [resolve]
  · exact fun h => absurd h hc
  · exact fun _ _ h => absurd h hc

theorem endsPending_plain (hc : c ≠ '\\') (s : List Char) :
    endsPending (c :: s) = endsPending s := by
  rw [endsPending]
  · exact fun h => absurd h hc
  · exact fun _ _ h => absurd h hc

section Yields

variable {config : LineReaderConfig} {raw : Bool} {input : List UInt8} {s : List Char}
  (hdelimiter : config.delimiter = some '\n') (hlimit : config.charLimit = none)
  (hraw : config.processEscapes = !raw)
include hdelimiter hlimit

theorem Yields.plain (hlow : c.toNat < 0x80) (hkey : isKey c = false)
    (hc : c = '\\' → config.processEscapes = false)
    (hkept : kept raw (c :: s) = if isIgnored c then kept raw s else c :: kept raw s)
    (hpending : pendingAfter raw (c :: s) = pendingAfter raw s)
    (ih : Yields config raw input s) : Yields config raw input (c :: s) := by
  intro line hline
  rw [transcript_char _ _ hlow hkey, onChar_plain hdelimiter hlimit hc, hkept, hpending]
  by_cases hnewline : c = '\n'
  · subst hnewline
    rw [if_pos rfl, if_neg (by decide), fullLines_append, lastLine_append]
    show line ++ '\n' :: transcript config ⟨[], false⟩ (encode s ++ input) = _
    rw [ih [] List.not_mem_nil, List.append_assoc]
    rfl
  · rw [if_neg hnewline]
    split_ifs with hignored
    · exact ih line hline
    · have := ih (line ++ [c]) (by simpa [hline] using Ne.symm hnewline)
      rwa [List.append_assoc] at this

theorem transcript_pair (hraw : config.processEscapes = true) (hlow : c.toNat < 0x80)
    (hkey : isKey c = false) (line : List Char) :
    transcript config ⟨line, false⟩ (encode ('\\' :: c :: s) ++ input) =
      transcript config ⟨if c = '\n' then line else line ++ [c], false⟩ (encode s ++ input) := by
  rw [transcript_char _ _ (by decide) (by decide), onChar_backslash hraw]
  dsimp only
  rw [transcript_char _ _ hlow hkey, onChar_escaped hdelimiter hlimit hraw]
  split_ifs <;> rfl

include hraw

theorem yields {s : List Char} (hs : IsAscii s) (hkey : KeyFree s) :
    Yields config raw input s := by
  cases raw with
  | true =>
    induction s with
    | nil =>
      intro line hline
      show transcript config ⟨line, false⟩ input = fullLines (line ++ []) ++
        transcript config ⟨lastLine (line ++ []), false⟩ input
      rw [List.append_nil, fullLines_of_line hline, lastLine_of_line hline, List.nil_append]
    | cons c s ih =>
      rw [IsAscii, List.forall_mem_cons] at hs
      rw [KeyFree, List.forall_mem_cons] at hkey
      refine Yields.plain hdelimiter hlimit hs.1 hkey.1 (fun _ => hraw) ?_ rfl (ih hs.2 hkey.2)
      rw [kept_raw, kept_raw, List.filter_cons]
      cases isIgnored c <;> rfl
  | false =>
    have hplain : ∀ {c : Char} {s : List Char}, c ≠ '\\' → IsAscii (c :: s) → KeyFree (c :: s) →
        (IsAscii s → KeyFree s → Yields config false input s) →
          Yields config false input (c :: s) := by
      intro c s hc hs hkey ih
      rw [IsAscii, List.forall_mem_cons] at hs
      rw [KeyFree, List.forall_mem_cons] at hkey
      refine Yields.plain hdelimiter hlimit hs.1 hkey.1 (fun h => absurd h hc) ?_ ?_
        (ih hs.2 hkey.2)
      · exact resolve_plain hc s
      · exact endsPending_plain hc s
    fun_induction resolve s with
    | case1 =>
      intro line hline
      show transcript config ⟨line, false⟩ input = fullLines (line ++ []) ++
        transcript config ⟨lastLine (line ++ []), false⟩ input
      rw [List.append_nil, fullLines_of_line hline, lastLine_of_line hline, List.nil_append]
    | case2 =>
      intro line hline
      rw [transcript_char _ _ (by decide) (by decide), onChar_backslash hraw]
      show transcript config ⟨line, true⟩ input = fullLines (line ++ []) ++
        transcript config ⟨lastLine (line ++ []), true⟩ input
      rw [List.append_nil, fullLines_of_line hline, lastLine_of_line hline, List.nil_append]
    | case3 s ih =>
      rw [IsAscii, List.forall_mem_cons, List.forall_mem_cons] at hs
      rw [KeyFree, List.forall_mem_cons, List.forall_mem_cons] at hkey
      intro line hline
      rw [transcript_pair hdelimiter hlimit hraw hs.2.1 hkey.2.1, if_pos rfl]
      exact ih hs.2.2 hkey.2.2 line hline
    | case4 c s hne ih =>
      rw [IsAscii, List.forall_mem_cons, List.forall_mem_cons] at hs
      rw [KeyFree, List.forall_mem_cons, List.forall_mem_cons] at hkey
      intro line hline
      rw [transcript_pair hdelimiter hlimit hraw hs.2.1 hkey.2.1, if_neg hne]
      have hkept : kept false ('\\' :: c :: s) = c :: kept false s := by
        show resolve _ = c :: resolve s
        rw [resolve, if_neg hne]
      have := ih hs.2.2 hkey.2.2 (line ++ [c]) (by simpa [hline] using Ne.symm hne)
      rw [List.append_assoc] at this
      rw [hkept]
      exact this
    | case5 c s h₁ h₂ hignored ih => exact hplain (fun h => by cases s <;> simp_all) hs hkey ih
    | case6 c s h₁ h₂ hignored ih => exact hplain (fun h => by cases s <;> simp_all) hs hkey ih

end Yields

theorem transcript_ctrlC (config : LineReaderConfig) (st : LineState) (input : List UInt8) :
    transcript config st (encode [ctrlC] ++ input) = [] := rfl

theorem transcript_ctrlD (config : LineReaderConfig) (st : LineState) (input : List UInt8) :
    transcript config st (encode [ctrlD] ++ input) =
      if st.line = [] ∧ st.pendingBackslash = false then []
      else st.line ++ '\n' :: transcript config ⟨[], false⟩ input := by
  show (if (if _ then _ else _ : ReadResult).outcome.2 = 0 then _ else _) = _
  split_ifs <;> first | rfl | contradiction

section Plain

variable (raw : Bool) (name : Option (List Char)) {s : List Char} (hs : IsAscii s)
  (hkey : KeyFree s)
include hs hkey

theorem readText_append (input : List UInt8) :
    (plainRead raw name).readText (encode s ++ input) = some (fullLines (kept raw s) ++
      transcript (plainRead raw name).config ⟨lastLine (kept raw s), pendingAfter raw s⟩ input) := by
  rw [readText_eq rfl rfl]
  exact congrArg some (yields rfl rfl rfl hs hkey [] List.not_mem_nil)

theorem readText_keyFree : (plainRead raw name).readText (encode s) = some (kept raw s) := by
  have h := readText_append raw name hs hkey []
  rw [List.append_nil] at h
  rw [h]
  exact congrArg some (fullLines_lastLine _)

theorem readText_ctrlC (t : List Char) :
    (plainRead raw name).readText (encode (s ++ ctrlC :: t)) =
      some (fullLines (kept raw s)) := by
  rw [encode_append, readText_append raw name hs hkey, show encode (ctrlC :: t) =
    encode [ctrlC] ++ encode t from encode_append [ctrlC] t, transcript_ctrlC, List.append_nil]

theorem readText_ctrlD (t : List Char) :
    (plainRead raw name).readText (encode (s ++ ctrlD :: t)) =
      if lastLine (kept raw s) = [] ∧ pendingAfter raw s = false then some (kept raw s)
      else ((plainRead raw name).readText (encode t)).map (kept raw s ++ '\n' :: ·) := by
  rw [encode_append, readText_append raw name hs hkey, show encode (ctrlD :: t) =
    encode [ctrlD] ++ encode t from encode_append [ctrlD] t, transcript_ctrlD, readText_eq rfl rfl]
  dsimp only
  have hsplit := fullLines_lastLine (kept raw s)
  split_ifs with h
  · rw [h.1] at hsplit
    rw [hsplit]
  · rw [← List.append_assoc, hsplit]
    rfl

end Plain

/-! ## A call with a limit -/

/-- What a call takes of a text that ends at `d` or as soon as it has `k` characters: its value, its
exit code and what it leaves. The characters before the end are no keys and not `d`. -/
inductive TakesNext (d : Option Char) (k : ℕ) (s : List Char) : List Char → ℕ → List Char → Prop
  | limit {p : List Char} {c : Char} {q : List Char} : s = p ++ c :: q →
    (∀ x ∈ p ++ [c], isKey x = false ∧ d ≠ some x) → isIgnored c = false →
    (kept true p).length + 1 = k → TakesNext d k s (kept true p ++ [c]) 0 q
  | delimiter {p : List Char} {c : Char} {q : List Char} : s = p ++ c :: q →
    (∀ x ∈ p, isKey x = false ∧ d ≠ some x) → (kept true p).length < k → isKey c = false →
    d = some c → TakesNext d k s (kept true p) 0 q
  | ended : (∀ x ∈ s, isKey x = false ∧ d ≠ some x) → (kept true s).length < k →
    TakesNext d k s (kept true s) 1 []
  | ctrlC {p q : List Char} : s = p ++ ReadLine.ctrlC :: q →
    (∀ x ∈ p, isKey x = false ∧ d ≠ some x) → (kept true p).length < k → TakesNext d k s [] 1 q
  | ctrlD {p q : List Char} : s = p ++ ReadLine.ctrlD :: q →
    (∀ x ∈ p, isKey x = false ∧ d ≠ some x) → (kept true p).length < k →
    TakesNext d k s (kept true p) (if kept true p = [] then 1 else 0) q

theorem byteLength_ascii {line : List Char} (h : IsAscii line) : byteLength line = line.length := by
  unfold byteLength
  induction line with
  | nil => rfl
  | cons c line ih =>
    rw [IsAscii, List.forall_mem_cons] at h
    rw [List.map_cons, List.sum_cons, ih h.2, List.length_cons, ← String.length_utf8EncodeChar,
      Shell.encode_low h.1, List.length_singleton, Nat.add_comm]

theorem kept_concat (p : List Char) (c : Char) :
    kept true (p ++ [c]) = kept true p ++ if isIgnored c then [] else [c] := by
  rw [kept_raw, kept_raw, List.filter_append]
  cases h : isIgnored c <;> simp [h]

section Limit

variable {config : LineReaderConfig} {d : Option Char} {k : ℕ}
  (hdelimiter : config.delimiter = d) (hlimit : config.charLimit = some k)
  (hraw : config.processEscapes = false)
include hdelimiter hlimit hraw

theorem onChar_limit {line : List Char} (hline : IsAscii (line ++ [c])) :
    onChar config ⟨line, false⟩ c =
      if d = some c then .inl (.line line)
      else if isIgnored c then .inr ⟨line, false⟩
      else if k ≤ line.length + 1 then .inl (.line (line ++ [c]))
      else .inr ⟨line ++ [c], false⟩ := by
  have hlength : byteLength (line ++ [c]) = line.length + 1 := by
    rw [byteLength_ascii hline, List.length_append, List.length_singleton]
  unfold onChar pushChar
  rw [hdelimiter, hraw, hlimit, Bool.false_and, if_neg Bool.false_ne_true, Bool.false_and,
    if_neg Bool.false_ne_true]
  dsimp only [Option.any_some]
  rw [hlength]
  simp only [decide_eq_true_eq]

theorem loop_takes (s : List Char) (p : List Char) (hascii : IsAscii (p ++ s))
    (hp : ∀ x ∈ p, isKey x = false ∧ d ≠ some x) (hlt : (kept true p).length < k) :
    ∃ value status rest, TakesNext d k (p ++ s) value status rest ∧
      (readLineLoop config none ⟨kept true p, false⟩ (encode s)).1.outcome.1.getD [] = value ∧
      (readLineLoop config none ⟨kept true p, false⟩ (encode s)).1.outcome.2 = status ∧
      (readLineLoop config none ⟨kept true p, false⟩ (encode s)).2 = encode rest := by
  induction s generalizing p with
  | nil =>
    rw [List.append_nil]
    exact ⟨_, _, _, .ended hp hlt, (outcome_eof _).2, (outcome_eof _).1, rfl⟩
  | cons c s ih =>
    have hassoc : p ++ c :: s = (p ++ [c]) ++ s := by simp
    have hlow : c.toNat < 0x80 := hascii c (by simp)
    have hstep : readLineLoop config none ⟨kept true p, false⟩ (encode (c :: s)) =
        match onEvent config ⟨kept true p, false⟩ (byteEvent (UInt8.ofNat c.toNat)) with
        | .inl result => (result, encode s)
        | .inr st => readLineLoop config none st (encode s) := by
      rw [encode_low hlow, loop_none_cons]
    rw [hstep]
    by_cases hC : c = ctrlC
    · subst hC
      exact ⟨_, _, _, .ctrlC rfl hp hlt, rfl, rfl, rfl⟩
    by_cases hD : c = ctrlD
    · subst hD
      refine ⟨_, _, _, .ctrlD rfl hp hlt, ?_, ?_, rfl⟩
      · show (if _ then _ else _ : ReadResult).outcome.1.getD [] = _
        split_ifs with h
        · exact h.1.symm
        · rfl
      · show (if _ then _ else _ : ReadResult).outcome.2 = _
        simp only [and_true]
        split_ifs <;> rfl
    have hkey : isKey c = false := by simp [isKey, hC, hD]
    rw [byteEvent_char hlow hkey]
    show ∃ value status rest, _ ∧ _
    have hline : IsAscii (kept true p ++ [c]) := by
      intro x hx
      rcases List.mem_append.1 hx with hx | hx
      · exact hascii x (List.mem_append_left _ (List.mem_of_mem_filter hx))
      · rwa [List.mem_singleton.1 hx]
    have hevent : onEvent config ⟨kept true p, false⟩ (.char c) = _ :=
      onChar_limit hdelimiter hlimit hraw hline
    rw [hevent]
    by_cases hd : d = some c
    · rw [if_pos hd]
      exact ⟨_, _, _, .delimiter rfl hp hlt hkey hd, rfl, rfl, rfl⟩
    rw [if_neg hd]
    have hp' : ∀ x ∈ p ++ [c], isKey x = false ∧ d ≠ some x := by
      intro x hx
      rcases List.mem_append.1 hx with hx | hx
      · exact hp x hx
      · rw [List.mem_singleton.1 hx]
        exact ⟨hkey, hd⟩
    have hnext := ih (p ++ [c]) (hassoc ▸ hascii) hp'
    rw [kept_concat, ← hassoc] at hnext
    cases hignored : isIgnored c with
    | true =>
      rw [hignored, if_pos rfl, List.append_nil] at hnext
      exact hnext hlt
    | false =>
      rw [hignored, if_neg Bool.false_ne_true, List.length_append, List.length_singleton] at hnext
      rw [if_neg Bool.false_ne_true]
      by_cases hk : k ≤ (kept true p).length + 1
      · rw [if_pos hk]
        exact ⟨_, _, _, .limit rfl hp' hignored (by omega), rfl, rfl, rfl⟩
      · rw [if_neg hk]
        exact hnext (by omega)

end Limit

theorem execute_takes (harray : cmd.arrayVariable = none)
    {name : Option (List Char)} (hname : cmd.variableNames = name.toList)
    (hraw : cmd.rawMode = true) {k : ℕ} (hlimit : cmd.config.charLimit = some k) (hk : 0 < k)
    {s : List Char} (hs : IsAscii s) :
    ∃ value status rest, TakesNext cmd.lineDelimiter k s value status rest ∧
      (cmd.execute [] none (encode s)).assigned.value = value ∧
      (cmd.execute [] none (encode s)).status = status ∧
      (cmd.execute [] none (encode s)).rest = encode rest := by
  obtain ⟨value, status, rest, htakes, hvalue, hstatus, hrest⟩ :=
    @loop_takes cmd.config _ _ rfl hlimit (by simp [ReadCommand.config, hraw]) s []
      hs (by simp) hk
  refine ⟨value, status, rest, htakes, ?_, hstatus, hrest⟩
  exact (value_assign harray hname _).trans hvalue

end Seahaven.ReadLine
