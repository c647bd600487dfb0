import Seahaven.Lib.Scan
import Seahaven.Shell.Decimal
import Seahaven.Shell.Declaration

/-!
# Options of a script

`getopts` answers one option a call. Where it is in the words is kept in `OPTIND` and, within a word,
in a variable of its own; another remembers the `OPTIND` it has left, so that a script that sets
`OPTIND` is noticed.

1. `parseOptionSpec` and `execute`: one call. `getoptsLoop`: calls until one fails.
2. `scanner`: the options of words, one after another, by the rules.
3. `execute_at`: what one call does, by the place it starts from.
4. `enumerates_iff`: calls from `OPTIND=1` on answer what the scanner does exactly if they start at
   the first word.
-/

namespace Seahaven.Getopts

open Shell

/-! ## Variables -/

abbrev Env := List Char → Option (List Char)

def Env.set (env : Env) (name value : List Char) : Env := Function.update env name (some value)

def Env.unset (env : Env) (name : List Char) : Env := Function.update env name none

abbrev optindName : List Char := "OPTIND".toList

abbrev optargName : List Char := "OPTARG".toList

abbrev opterrName : List Char := "OPTERR".toList

/-- `VAR_GETOPTS_NEXT_CHAR_INDEX`. -/
abbrev nextCharName : List Char := "__GETOPTS_NEXT_CHAR".toList

/-- `VAR_GETOPTS_LAST_OPTIND`. -/
abbrev lastOptindName : List Char := "__GETOPTS_LAST_OPTIND".toList

/-- `str::parse::<i32>()`. -/
def parseI32 (s : List Char) : Option ℤ :=
  (parseI64 s).filter fun n => -2 ^ 31 ≤ n ∧ n < 2 ^ 31

/-- `usize::to_string()`. -/
def toText (n : ℕ) : List Char := Nat.toDigits 10 n

/-! ## The options that are defined -/

structure OptionSpec where
  /-- Whether an option takes an argument. -/
  defs : List (Char × Bool)
  silentErrors : Bool

/-- The state of the loop of `parse_option_spec`. -/
structure SpecState where
  defs : List (Char × Bool)
  silentErrors : Bool
  lastChar : Option Char

def SpecState.next (st : SpecState) (c : Char) : SpecState :=
  if c = ':' then
    match st.lastChar with
    | some l => { st with defs := (l, true) :: st.defs }
    | none => if st.defs = [] then { st with silentErrors := true } else st
  else
    match st.defs.lookup c with
    | none => { st with defs := (c, false) :: st.defs, lastChar := some c }
    | some _ => { st with lastChar := none }

def parseOptionSpec (spec : List Char) : OptionSpec :=
  let st := spec.foldl SpecState.next ⟨[], false, none⟩
  ⟨st.defs, st.silentErrors⟩

/-! ## One call -/

structure GetOptsCommand where
  optionsString : List Char
  variableName : List Char
  args : List (List Char)

/-- The words that are parsed: the arguments, or where there are none the shell's. -/
def GetOptsCommand.argsToParse (cmd : GetOptsCommand) (shellArgs : List (List Char)) :
    List (List Char) :=
  if cmd.args ≠ [] then cmd.args else shellArgs

structure GetOptsResult where
  variableValue : List Char
  optarg : Option (List Char)
  optind : ℕ
  exitCode : ℕ

def isOpterrEnabled (env : Env) : Bool :=
  match env opterrName with
  | none => true
  | some s => (parseI64 s).getD 1 ≠ 0

/-- What an option comes to: the value, its argument, whether the word is done with, the index of
the word and what is written to the standard error. -/
abbrev Resolved := List Char × Option (List Char) × Bool × ℕ × List (List Char)

def resolveOptionArgument (opterr : Bool) (spec : OptionSpec) (c : Char) (arg : List Char)
    (argsToParse : List (List Char)) (nextCharIndex : ℕ) (isLastCharInOption : Bool)
    (nextIndex : ℕ) : Resolved :=
  if isLastCharInOption then
    if argsToParse.length ≤ nextIndex then
      if spec.silentErrors then ([':'], some [c], true, nextIndex, [])
      else (['?'], none, true, nextIndex,
        if opterr then ["getopts: option requires an argument -- ".toList ++ [c]] else [])
    else ([c], some (argsToParse.getD nextIndex []), true, nextIndex + 1, [])
  else ([c], some (arg.drop (nextCharIndex + 1)), true, nextIndex, [])

def reportUnknownOption (opterr : Bool) (spec : OptionSpec) (c : Char) :
    List Char × Option (List Char) × List (List Char) :=
  (['?'], if spec.silentErrors then some [c] else none,
    if !spec.silentErrors && opterr then ["getopts: illegal option -- ".toList ++ [c]] else [])

def nextCharIndex (env : Env) : ℕ :=
  match env nextCharName with
  | none => 1
  | some s => (parseU64 s).getD 1

def isNoOption (arg : List Char) : Bool :=
  arg.head? ≠ some '-' || arg = ['-', '-'] || arg = ['-']

/-- The character of a word that a call reads: an index beyond the word is that of another word. -/
def charIndex (w : List Char) (j : ℕ) : ℕ := if j < w.length then j else 1

/-- `parse_next_option`: the result, the variables, and what is written to the standard error. -/
def parseNextOption (env : Env) (spec : OptionSpec) (argsToParse : List (List Char))
    (nextIndex : ℕ) : GetOptsResult × Env × List (List Char) :=
  if argsToParse.length < nextIndex then (⟨['?'], none, argsToParse.length + 1, 1⟩, env, [])
  else
    let arg := argsToParse.getD (nextIndex - 1) []
    if isNoOption arg then
      (⟨['?'], none, if arg = ['-', '-'] then nextIndex + 1 else nextIndex, 1⟩, env, [])
    else
      let j := charIndex arg (nextCharIndex env)
      match arg[j]? with
      | none => (⟨['?'], none, nextIndex, 1⟩, env, [])
      | some c =>
        let isLast : Bool := j = arg.length - 1
        let (value, optarg, isLast, nextIndex, messages) : Resolved :=
          match spec.defs.lookup c with
          | some true =>
            resolveOptionArgument (isOpterrEnabled env) spec c arg argsToParse j isLast nextIndex
          | some false => ([c], none, isLast, nextIndex, [])
          | none =>
            let (value, optarg, messages) := reportUnknownOption (isOpterrEnabled env) spec c
            (value, optarg, isLast, nextIndex, messages)
        if isLast then
          (⟨value, optarg, nextIndex + 1, 0⟩, env.unset nextCharName, messages)
        else (⟨value, optarg, nextIndex, 0⟩, env.set nextCharName (toText (j + 1)), messages)

def updateVariables (env : Env) (variableName : List Char) (result : GetOptsResult) : Env :=
  let env := env.set variableName result.variableValue
  let env :=
    match result.optarg with
    | some optarg => env.set optargName optarg
    | none => env.unset optargName
  (env.set optindName (toText result.optind)).set lastOptindName (toText result.optind)

/-- What a call leaves: its exit code, the variables and what it writes to the standard error. -/
structure Call where
  status : ℕ
  env : Env
  messages : List (List Char)

/-- `OPTIND`, which is 1 if it is unset or no number. -/
def nextIndexSigned (env : Env) : ℤ := ((env optindName).bind parseI32).getD 1

/-- One call of `getopts`. -/
def GetOptsCommand.execute (cmd : GetOptsCommand) (shellArgs : List (List Char)) (env : Env) :
    Call :=
  if !validVariableName cmd.variableName then
    ⟨1, env, ["getopts: ".toList ++ '\x60' :: cmd.variableName ++
      "': not a valid identifier".toList]⟩
  else
    let lastOptind := (env lastOptindName).bind parseI32
    let env' := if lastOptind ≠ some (nextIndexSigned env) then env.unset nextCharName else env
    let (result, env'', messages) :=
      parseNextOption env' (parseOptionSpec cmd.optionsString) (cmd.argsToParse shellArgs)
        (max (nextIndexSigned env) 1).toNat
    ⟨result.exitCode, updateVariables env'' cmd.variableName result, messages⟩

/-- What a script sees of a call. -/
structure Seen where
  value : Option (List Char)
  optarg : Option (List Char)
  messages : List (List Char)
  deriving DecidableEq

/-- Calls until one fails: what is seen of each, and the variables that are left. -/
def getoptsLoop (cmd : GetOptsCommand) (shellArgs : List (List Char)) :
    ℕ → Env → Option (List Seen × Env)
  | 0, _ => none
  | fuel + 1, env =>
    let call := cmd.execute shellArgs env
    let seen : Seen := ⟨call.env cmd.variableName, call.env optargName, call.messages⟩
    if call.status = 0 then
      (getoptsLoop cmd shellArgs fuel call.env).map fun (rest, env) => (seen :: rest, env)
    else some ([seen], call.env)

example : ((getoptsLoop ⟨"ab:".toList, ['x'], [['-', 'a', 'c'], ['-', 'b'], ['z'], ['q']]⟩ [] 5
    fun _ => none).map fun r => (r.1.map (·.value), r.1.map (·.optarg), r.2 optindName)) =
      some ([some ['a'], some ['?'], some ['b'], some ['?']], [none, none, some ['z'], none],
        some ['4']) := by decide

/-! ## The rules -/

/-- What scanning depends on besides the words. -/
structure Options where
  optstring : List Char
  opterr : Bool

def optionOf : List Char → Char → Option Bool
  | [], _ => none
  | x :: s, c => if x = c then some (s.head? = some ':') else optionOf s c

def takesArgument (optstring : List Char) (c : Char) : Option Bool :=
  if c = ':' then none else optionOf optstring c

def silent (optstring : List Char) : Bool := optstring.head? = some ':'

/-- A place in the words: the characters that are left of a word, the words behind it, and its
index; between words, the index of the next. -/
@[ext] structure Cursor where
  flags : List Char
  rest : List (List Char)
  index : ℕ

/-- An option, the characters behind it in its word, and the words behind that. -/
def takeOption (o : Options) (c : Char) (flags : List Char) (rest : List (List Char))
    (index : ℕ) : Seen × Cursor :=
  let behind : Cursor := ⟨flags, rest, if flags = [] then index + 1 else index⟩
  match takesArgument o.optstring c with
  | none =>
    (⟨some ['?'], if silent o.optstring then some [c] else none,
      if !silent o.optstring && o.opterr then ["getopts: illegal option -- ".toList ++ [c]]
      else []⟩, behind)
  | some false => (⟨some [c], none, []⟩, behind)
  | some true =>
    match flags, rest with
    | _ :: _, _ => (⟨some [c], some flags, []⟩, ⟨[], rest, index + 1⟩)
    | [], arg :: rest => (⟨some [c], some arg, []⟩, ⟨[], rest, index + 2⟩)
    | [], [] =>
      (if silent o.optstring then ⟨some [':'], some [c], []⟩
        else ⟨some ['?'], none,
          if o.opterr then ["getopts: option requires an argument -- ".toList ++ [c]] else []⟩,
        ⟨[], [], index + 1⟩)

/-- The next option, with the characters behind it in its word and the words behind that, if an
operand or the end is not reached. -/
def Cursor.ahead (c : Cursor) : Option (Char × List Char × List (List Char)) :=
  match c.flags, c.rest with
  | f :: flags, rest => some (f, flags, rest)
  | [], ('-' :: f :: flags) :: rest =>
    if f = '-' ∧ flags = [] then none else some (f, flags, rest)
  | _, _ => none

def nextOption (o : Options) (c : Cursor) : Option (Seen × Cursor) :=
  c.ahead.map fun (f, flags, rest) => takeOption o f flags rest c.index

def Cursor.size (c : Cursor) : ℕ := c.flags.length + (c.rest.map List.length).sum

theorem size_takeOption (o : Options) (c : Char) (flags : List Char) (rest : List (List Char))
    (index : ℕ) : (takeOption o c flags rest index).2.size ≤
      flags.length + (rest.map List.length).sum := by
  unfold takeOption Cursor.size
  dsimp only
  split
  · exact Nat.le_refl _
  · exact Nat.le_refl _
  · split
    · simp
    · simp
    · simp

variable {rest : List (List Char)}

theorem ahead_size {c : Cursor} {f : Char} {flags : List Char}
    (h : c.ahead = some (f, flags, rest)) :
    flags.length + (rest.map List.length).sum < c.size := by
  obtain ⟨cflags, crest, index⟩ := c
  unfold Cursor.ahead at h
  unfold Cursor.size
  dsimp only at h ⊢
  split at h
  · cases h
    rw [List.length_cons]
    omega
  · split_ifs at h
    cases h
    simp only [List.length_nil, List.map_cons, List.sum_cons, List.length_cons]
    omega
  · cases h

variable {seen : Seen}

theorem nextOption_lt {o : Options} {c c' : Cursor}
    (h : nextOption o c = some (seen, c')) : c'.size < c.size := by
  obtain ⟨⟨f, flags, rest⟩, hahead, htake⟩ := Option.map_eq_some_iff.1 h
  have hsize := size_takeOption o f flags rest c.index
  rw [show takeOption o f flags rest c.index = (seen, c') from htake] at hsize
  exact Nat.lt_of_le_of_lt hsize (ahead_size hahead)

def scanner (o : Options) : Scanner Cursor Seen where
  next := nextOption o
  size := Cursor.size
  next_lt := nextOption_lt

/-- The index of the first operand, behind `--`. -/
def Cursor.operand (c : Cursor) : ℕ :=
  if c.rest.head? = some ['-', '-'] then c.index + 1 else c.index

def start (words : List (List Char)) : Cursor := ⟨[], words, 1⟩

/-! ## The options that are found -/

def SpecState.definition (st : SpecState) (s : List Char) (c : Char) : Option Bool :=
  match st.defs.lookup c with
  | some b => some (b || (st.lastChar = some c && s.head? = some ':'))
  | none => optionOf s c

def SpecState.quiet (st : SpecState) (s : List Char) : Bool :=
  st.silentErrors || (st.lastChar = none && st.defs = [] && s.head? = some ':')

/-- The last character is defined, and a colon is not. -/
structure SpecState.Ok (st : SpecState) : Prop where
  last : ∀ l, st.lastChar = some l → (st.defs.lookup l).isSome = true
  colon : st.defs.lookup ':' = none

theorem SpecState.next_spec {st : SpecState} (h : st.Ok) (x : Char) (s : List Char) :
    (st.next x).Ok ∧ (st.next x).quiet s = st.quiet (x :: s) ∧
      ∀ c ≠ ':', (st.next x).definition s c = st.definition (x :: s) c := by
  obtain ⟨hlast, hcolon⟩ := h
  obtain ⟨defs, silentErrors, lastChar⟩ := st
  unfold SpecState.next
  by_cases hx : x = ':'
  · subst hx
    rw [if_pos rfl]
    cases lastChar with
    | none =>
      cases defs with
      | nil =>
        refine ⟨⟨nofun, rfl⟩, by simp [SpecState.quiet], fun c hc => ?_⟩
        simp [SpecState.definition, optionOf, Ne.symm hc]
      | cons d defs =>
        refine ⟨⟨nofun, hcolon⟩, by simp [SpecState.quiet], fun c hc => ?_⟩
        simp [SpecState.definition, optionOf, Ne.symm hc]
    | some l =>
      obtain ⟨b, hb⟩ := Option.isSome_iff_exists.1 (hlast l rfl)
      have hl : (':' == l) = false := beq_eq_false_iff_ne.2 fun he => by
        rw [← he, hcolon] at hb
        cases hb
      refine ⟨⟨?_, ?_⟩, by simp [SpecState.quiet], fun c hc => ?_⟩
      · rintro _ ⟨⟩
        simp
      · rw [List.lookup_cons, hl]
        exact hcolon
      · by_cases hcl : c = l
        · subst hcl
          simp [SpecState.definition, hb]
        · simp [SpecState.definition, optionOf, List.lookup_cons, beq_eq_false_iff_ne.2 hcl,
            Ne.symm hcl, Ne.symm hc]
  · rw [if_neg hx]
    cases hlookup : defs.lookup x with
    | none =>
      refine ⟨⟨?_, ?_⟩, by simp [SpecState.quiet, hx], fun c hc => ?_⟩
      · rintro _ ⟨⟩
        simp
      · rw [List.lookup_cons, beq_eq_false_iff_ne.2 (Ne.symm hx)]
        exact hcolon
      · by_cases hcx : c = x
        · subst hcx
          simp [SpecState.definition, optionOf, hlookup]
        · simp [SpecState.definition, optionOf, List.lookup_cons, beq_eq_false_iff_ne.2 hcx,
            Ne.symm hcx, hx]
    | some b =>
      refine ⟨⟨nofun, hcolon⟩, ?_, fun c hc => ?_⟩
      · have hne : defs ≠ [] := by
          rintro rfl
          cases hlookup
        simp [SpecState.quiet, hx, hne]
      · by_cases hcx : c = x
        · subst hcx
          simp [SpecState.definition, hlookup, hx]
        · simp [SpecState.definition, optionOf, hx, Ne.symm hcx]

theorem foldl_next {st : SpecState} (h : st.Ok) (s : List Char) :
    (s.foldl SpecState.next st).Ok ∧ (s.foldl SpecState.next st).silentErrors = st.quiet s ∧
      ∀ c ≠ ':', (s.foldl SpecState.next st).defs.lookup c = st.definition s c := by
  induction s generalizing st with
  | nil =>
    refine ⟨h, by simp [SpecState.quiet], fun c _ => ?_⟩
    unfold SpecState.definition
    cases h : st.defs.lookup c <;> simp [h, optionOf]
  | cons x s ih =>
    obtain ⟨hok, hquiet, hdefinition⟩ := SpecState.next_spec h x s
    obtain ⟨hok, hsilent, hdefs⟩ := ih hok
    exact ⟨hok, hsilent.trans hquiet, fun c hc => (hdefs c hc).trans (hdefinition c hc)⟩

theorem parseOptionSpec_eq (spec : List Char) :
    (parseOptionSpec spec).silentErrors = silent spec ∧
      ∀ c, (parseOptionSpec spec).defs.lookup c = takesArgument spec c := by
  obtain ⟨hok, hsilent, hdefs⟩ := @foldl_next ⟨[], false, none⟩ ⟨nofun, rfl⟩ spec
  refine ⟨hsilent, fun c => ?_⟩
  unfold takesArgument
  split_ifs with hc
  · subst hc
    exact hok.colon
  · exact hdefs c hc

/-! ## One call by its place -/

/-- The place a call starts from in the word at an index, by the characters of it that were read. -/
def cursorAt (words : List (List Char)) (i j : ℕ) : Cursor :=
  match words[i - 1]? with
  | some w =>
    if isNoOption w = false ∧ 1 < j ∧ j < w.length then ⟨w.drop j, words.drop i, i⟩
    else ⟨[], words.drop (i - 1), i⟩
  | none => ⟨[], words.drop (i - 1), i⟩

def startIndex (env : Env) : ℕ := (max (nextIndexSigned env) 1).toNat

/-- The variables a call goes by: a script that has set `OPTIND` starts a word anew. -/
def noticed (env : Env) : Env :=
  if (env lastOptindName).bind parseI32 ≠ some (nextIndexSigned env) then env.unset nextCharName
  else env

def startOf (env : Env) (words : List (List Char)) : Cursor :=
  cursorAt words (startIndex env) (nextCharIndex (noticed env))

theorem execute_eq {cmd : GetOptsCommand} (hname : validVariableName cmd.variableName = true)
    (shellArgs : List (List Char)) (env : Env) : cmd.execute shellArgs env =
      let r := parseNextOption (noticed env) (parseOptionSpec cmd.optionsString)
        (cmd.argsToParse shellArgs) (startIndex env)
      ⟨r.1.exitCode, updateVariables r.2.1 cmd.variableName r.1, r.2.2⟩ := by
  unfold GetOptsCommand.execute
  rw [hname]
  rfl

variable {w : List Char}

theorem isNoOption_eq_false (h : isNoOption w = false) :
    ∃ f flags, w = '-' :: f :: flags ∧ ¬(f = '-' ∧ flags = []) := by
  unfold isNoOption at h
  rw [Bool.or_eq_false_iff, Bool.or_eq_false_iff, decide_eq_false_iff_not, not_not,
    decide_eq_false_iff_not, decide_eq_false_iff_not] at h
  obtain ⟨⟨hhead, hdashes⟩, hdash⟩ := h
  match w with
  | [] => cases hhead
  | [c] =>
    cases hhead
    exact absurd rfl hdash
  | c :: f :: flags =>
    cases hhead
    exact ⟨f, flags, rfl, fun hf => hdashes (by rw [hf.1, hf.2])⟩

variable {i j : ℕ}

theorem ahead_cursorAt {words : List (List Char)}
    (hw : words[i - 1]? = some w) (hi : 0 < i) (hoption : isNoOption w = false) (hj : 0 < j) :
    ∃ c, w[charIndex w j]? = some c ∧ (cursorAt words i j).ahead =
      some (c, w.drop (charIndex w j + 1), words.drop i) := by
  unfold cursorAt
  rw [hw]
  dsimp only
  by_cases hmid : 1 < j ∧ j < w.length
  · rw [if_pos ⟨hoption, hmid⟩, charIndex, if_pos hmid.2]
    refine ⟨w[j], List.getElem?_eq_getElem hmid.2, ?_⟩
    unfold Cursor.ahead
    rw [List.drop_eq_getElem_cons hmid.2]
  · rw [if_neg (fun h => hmid h.2)]
    obtain ⟨f, flags, rfl, hdashes⟩ := isNoOption_eq_false hoption
    have hone : charIndex ('-' :: f :: flags) j = 1 := by
      unfold charIndex
      split_ifs with hlt
      · omega
      · rfl
    obtain ⟨hlt, hget⟩ := List.getElem?_eq_some_iff.1 hw
    have hdrop : words.drop (i - 1) = ('-' :: f :: flags) :: words.drop i := by
      rw [List.drop_eq_getElem_cons hlt, hget, Nat.sub_add_cancel hi]
    rw [hone, hdrop]
    refine ⟨f, rfl, ?_⟩
    unfold Cursor.ahead
    exact if_neg hdashes

theorem cursorAt_index (words : List (List Char)) (i j : ℕ) : (cursorAt words i j).index = i := by
  unfold cursorAt
  split
  · split_ifs <;> rfl
  · rfl

theorem operand_pos {words : List (List Char)} (hi : 0 < i) :
    0 < (cursorAt words i j).operand := by
  unfold Cursor.operand
  rw [cursorAt_index]
  split_ifs <;> omega

theorem parseNextOption_option {env : Env} {optstring : List Char} {words : List (List Char)}
    {i : ℕ} {w : List Char} {c : Char} (hw : words[i - 1]? = some w) (hi : 0 < i)
    (hoption : isNoOption w = false) (hc : w[charIndex w (nextCharIndex env)]? = some c) :
    let t := takeOption ⟨optstring, isOpterrEnabled env⟩ c
      (w.drop (charIndex w (nextCharIndex env) + 1)) (words.drop i) i
    parseNextOption env (parseOptionSpec optstring) words i =
      (⟨t.1.value.getD [], t.1.optarg, t.2.index, 0⟩,
        if t.2.flags = [] then env.unset nextCharName
        else env.set nextCharName (toText (charIndex w (nextCharIndex env) + 1)),
        t.1.messages) := by
  obtain ⟨hsilent, hlookup⟩ := parseOptionSpec_eq optstring
  obtain ⟨hlt, hget⟩ := List.getElem?_eq_some_iff.1 hw
  obtain ⟨hclt, -⟩ := List.getElem?_eq_some_iff.1 hc
  have hword : words.getD (i - 1) [] = w := by
    rw [List.getD_eq_getElem?_getD, hw]
    rfl
  have hlast : (decide (charIndex w (nextCharIndex env) = w.length - 1)) =
      decide (w.drop (charIndex w (nextCharIndex env) + 1) = []) := by
    rw [decide_eq_decide, List.drop_eq_nil_iff]
    omega
  have hrest : words.length ≤ i ↔ words.drop i = [] := List.drop_eq_nil_iff.symm
  unfold parseNextOption
  rw [if_neg (by omega), hword]
  dsimp only
  rw [if_neg (by rw [hoption]; exact Bool.false_ne_true), hc]
  dsimp only
  rw [hlookup, hlast]
  unfold takeOption
  generalize charIndex w (nextCharIndex env) = j
  cases takesArgument optstring c with
  | none =>
    unfold reportUnknownOption
    rw [hsilent]
    by_cases hflags : w.drop (j + 1) = []
    · simp only [hflags, decide_true, if_true, Option.getD_some]
    · simp only [hflags, decide_false, if_false, Option.getD_some, Bool.false_eq_true]
  | some takes =>
    cases takes with
    | false =>
      by_cases hflags : w.drop (j + 1) = []
      · simp only [hflags, decide_true, if_true, Option.getD_some]
      · simp only [hflags, decide_false, if_false, Option.getD_some, Bool.false_eq_true]
    | true =>
      unfold resolveOptionArgument
      rw [hsilent]
      by_cases hflags : w.drop (j + 1) = []
      · simp only [hflags, decide_true, if_true]
        by_cases hend : words.drop i = []
        · rw [if_pos (hrest.2 hend), hend]
          cases silent optstring <;> rfl
        · have hilt : i < words.length := Nat.lt_of_not_le (mt hrest.1 hend)
          rw [if_neg (mt hrest.1 hend), List.drop_eq_getElem_cons hilt,
            List.getD_eq_getElem?_getD, List.getElem?_eq_getElem hilt]
          rfl
      · obtain ⟨f, flags, hcons⟩ := List.exists_cons_of_ne_nil hflags
        rw [hcons]
        rfl

theorem cursorAt_one (words : List (List Char)) (i : ℕ) :
    cursorAt words i 1 = ⟨[], words.drop (i - 1), i⟩ := by
  unfold cursorAt
  split
  · rw [if_neg (fun h => absurd h.2.1 (by decide))]
  · rfl

theorem parseNextOption_end {env : Env} {spec : OptionSpec} {words : List (List Char)} {i : ℕ}
    (hi : 0 < i) (hle : i ≤ words.length + 1) (hj : 0 < nextCharIndex env)
    (hahead : (cursorAt words i (nextCharIndex env)).ahead = none) :
    parseNextOption env spec words i =
      (⟨['?'], none, (cursorAt words i (nextCharIndex env)).operand, 1⟩, env, []) := by
  unfold parseNextOption
  by_cases hend : words.length < i
  · have hnone : words[i - 1]? = none := List.getElem?_eq_none_iff.2 (by omega)
    rw [if_pos hend, cursorAt, hnone]
    dsimp only
    rw [List.drop_eq_nil_of_le (by omega), show i = words.length + 1 by omega]
    rfl
  · have hlt : i - 1 < words.length := by omega
    have hw : words[i - 1]? = some words[i - 1] := List.getElem?_eq_getElem hlt
    have hno : isNoOption words[i - 1] = true := by
      by_contra hoption
      obtain ⟨c, -, hsome⟩ := ahead_cursorAt hw hi (Bool.eq_false_iff.2 hoption) hj
      rw [hahead] at hsome
      cases hsome
    have hcursor : cursorAt words i (nextCharIndex env) = ⟨[], words.drop (i - 1), i⟩ := by
      unfold cursorAt
      rw [hw]
      exact if_neg fun h => by rw [hno] at h; cases h.1
    have hword : words.getD (i - 1) [] = words[i - 1] := by
      rw [List.getD_eq_getElem?_getD, hw]
      rfl
    rw [if_neg hend, hcursor, hword, Cursor.operand]
    dsimp only
    rw [if_pos hno, List.head?_drop, hw]
    simp only [Option.some.injEq]

theorem takeOption_cases (o : Options) (c : Char) (flags : List Char) (rest : List (List Char))
    (i : ℕ) : (∃ v, (takeOption o c flags rest i).1.value = some v) ∧
      (((takeOption o c flags rest i).2 = ⟨flags, rest, i⟩ ∧ flags ≠ [] ∧
          takesArgument o.optstring c ≠ some true) ∨
        ∃ n ≤ rest.length, (takeOption o c flags rest i).2 = ⟨[], rest.drop n, i + n + 1⟩) := by
  unfold takeOption
  dsimp only
  split
  · rename_i htakes
    refine ⟨⟨_, rfl⟩, ?_⟩
    by_cases h : flags = []
    · exact .inr ⟨0, Nat.zero_le _, by rw [if_pos h, h]; rfl⟩
    · exact .inl ⟨by rw [if_neg h], h, by rw [htakes]; nofun⟩
  · rename_i htakes
    refine ⟨⟨_, rfl⟩, ?_⟩
    by_cases h : flags = []
    · exact .inr ⟨0, Nat.zero_le _, by rw [if_pos h, h]; rfl⟩
    · exact .inl ⟨by rw [if_neg h], h, by rw [htakes]; nofun⟩
  · split
    · exact ⟨⟨_, rfl⟩, .inr ⟨0, Nat.zero_le _, rfl⟩⟩
    · exact ⟨⟨_, rfl⟩, .inr ⟨1, Nat.succ_pos _, rfl⟩⟩
    · exact ⟨by split_ifs <;> exact ⟨_, rfl⟩, .inr ⟨0, Nat.zero_le _, rfl⟩⟩

/-! ## The variables behind a call -/

/-- The name of a variable that `getopts` does not use itself. -/
structure OwnName (name : List Char) : Prop where
  valid : validVariableName name = true
  ne_optind : name ≠ optindName
  ne_optarg : name ≠ optargName
  ne_opterr : name ≠ opterrName
  ne_nextChar : name ≠ nextCharName
  ne_lastOptind : name ≠ lastOptindName

theorem Env.set_of_ne {env : Env} {name other value : List Char} (h : other ≠ name) :
    env.set name value other = env other := Function.update_of_ne h _ _

theorem Env.set_self (env : Env) (name value : List Char) :
    env.set name value name = some value := Function.update_self _ _ _

theorem Env.unset_of_ne {env : Env} {name other : List Char} (h : other ≠ name) :
    env.unset name other = env other := Function.update_of_ne h _ _

theorem Env.unset_self (env : Env) (name : List Char) : env.unset name name = none :=
  Function.update_self _ _ _

def setOptarg (env : Env) (optarg : Option (List Char)) : Env :=
  match optarg with
  | some optarg => env.set optargName optarg
  | none => env.unset optargName

theorem setOptarg_self (env : Env) (optarg : Option (List Char)) :
    setOptarg env optarg optargName = optarg := by
  cases optarg with
  | none => exact env.unset_self _
  | some s => exact env.set_self _ _

theorem setOptarg_of_ne {env : Env} (optarg : Option (List Char)) {name : List Char}
    (h : name ≠ optargName) : setOptarg env optarg name = env name := by
  cases optarg with
  | none => exact Env.unset_of_ne h
  | some s => exact Env.set_of_ne h

section Update

variable {env : Env} {name : List Char} (hname : OwnName name) (result : GetOptsResult)

theorem update_eq : updateVariables env name result =
    ((setOptarg (env.set name result.variableValue) result.optarg).set optindName
      (toText result.optind)).set lastOptindName (toText result.optind) := rfl

theorem update_optind :
    updateVariables env name result optindName = some (toText result.optind) := by
  rw [update_eq, Env.set_of_ne (by decide), Env.set_self]

theorem update_lastOptind :
    updateVariables env name result lastOptindName = some (toText result.optind) := by
  rw [update_eq, Env.set_self]

theorem update_optarg : updateVariables env name result optargName = result.optarg := by
  rw [update_eq, Env.set_of_ne (by decide), Env.set_of_ne (by decide), setOptarg_self]

include hname

theorem update_value : updateVariables env name result name = some result.variableValue := by
  rw [update_eq, Env.set_of_ne hname.ne_lastOptind, Env.set_of_ne hname.ne_optind,
    setOptarg_of_ne _ hname.ne_optarg, Env.set_self]

theorem update_nextChar : updateVariables env name result nextCharName = env nextCharName := by
  rw [update_eq, Env.set_of_ne (by decide), Env.set_of_ne (by decide),
    setOptarg_of_ne _ (by decide), Env.set_of_ne hname.ne_nextChar.symm]

theorem update_opterr : updateVariables env name result opterrName = env opterrName := by
  rw [update_eq, Env.set_of_ne (by decide), Env.set_of_ne (by decide),
    setOptarg_of_ne _ (by decide), Env.set_of_ne hname.ne_opterr.symm]

end Update

theorem parseI32_toText (n : ℕ) : parseI32 (toText n) = if n < 2 ^ 31 then some (n : ℤ) else none := by
  unfold parseI32 toText
  rw [(parse_toDigits n).1]
  by_cases h : n < 2 ^ 31
  · rw [if_pos h, if_pos (h.trans (by decide)), Option.filter_some, if_pos (by simp; omega)]
  · rw [if_neg h]
    split_ifs
    · rw [Option.filter_some, if_neg (by simp; omega)]
    · rfl

variable {n : ℕ}

theorem startOf_written {env : Env} (hn : 0 < n) (hoptind : env optindName = some (toText n))
    (hlast : env lastOptindName = some (toText n)) (words : List (List Char)) :
    startOf env words =
      if n < 2 ^ 31 then cursorAt words n (nextCharIndex env) else start words := by
  have hparsed : ∀ name, env name = some (toText n) → (env name).bind parseI32 =
      if n < 2 ^ 31 then some (n : ℤ) else none := fun name h => by
    rw [h, Option.bind_some, parseI32_toText]
  unfold startOf startIndex noticed nextIndexSigned
  rw [hparsed _ hoptind, hparsed _ hlast]
  by_cases h : n < 2 ^ 31
  · rw [if_pos h, if_pos h, Option.getD_some, if_neg (not_not.2 rfl),
      show (max (n : ℤ) 1).toNat = n by omega]
  · have hone : nextCharIndex (env.unset nextCharName) = 1 := by
      unfold nextCharIndex
      rw [Env.unset_self]
    rw [if_neg h, if_neg h, Option.getD_none, if_pos nofun, hone]
    exact cursorAt_one words 1

theorem word_of_ahead {words : List (List Char)} (hi : 0 < i)
    (h : (cursorAt words i j).ahead ≠ none) :
    ∃ w, words[i - 1]? = some w ∧ isNoOption w = false := by
  cases hw : words[i - 1]? with
  | none =>
    have hdrop : words.drop (i - 1) = [] :=
      List.drop_eq_nil_of_le (List.getElem?_eq_none_iff.1 hw)
    unfold cursorAt at h
    rw [hw, hdrop] at h
    exact absurd rfl h
  | some w =>
    refine ⟨w, rfl, ?_⟩
    by_contra hno
    obtain ⟨hlt, hget⟩ := List.getElem?_eq_some_iff.1 hw
    have hdrop : words.drop (i - 1) = w :: words.drop i := by
      rw [List.drop_eq_getElem_cons hlt, hget, Nat.sub_add_cancel hi]
    unfold cursorAt at h
    rw [hw] at h
    dsimp only at h
    rw [if_neg (fun hmid => hno hmid.1), hdrop] at h
    refine h ?_
    unfold Cursor.ahead
    dsimp only
    split
    · rename_i heq
      cases heq
    · rename_i f flags rest _ heq
      cases heq
      refine if_pos ?_
      by_contra hdashes
      exact hno (by simpa [isNoOption] using hdashes)
    · rfl

/-- The variables `getopts` keeps to itself are as it writes them. -/
structure Sound (env : Env) : Prop where
  nextChar : env nextCharName = none ∨ ∃ j, 1 < j ∧ env nextCharName = some (toText j)
  lastOptind : env lastOptindName = none ∨ ∃ n, 0 < n ∧ env lastOptindName = some (toText n)

theorem noticed_of_ne (env : Env) {name : List Char} (h : name ≠ nextCharName) :
    noticed env name = env name := by
  unfold noticed
  split_ifs
  · exact Env.unset_of_ne h
  · rfl

theorem nextCharIndex_toText {env : Env} (h : env nextCharName = some (toText j)) :
    nextCharIndex env = if j < 2 ^ 64 then j else 1 := by
  unfold nextCharIndex toText at *
  rw [h]
  dsimp only
  rw [(parse_toDigits j).2]
  split_ifs <;> rfl

theorem nextCharIndex_none {env : Env} (h : env nextCharName = none) : nextCharIndex env = 1 := by
  unfold nextCharIndex
  rw [h]

theorem Sound.index_pos {env : Env} (h : Sound env) : 0 < nextCharIndex env := by
  rcases h.nextChar with hnone | ⟨j, hj, hsome⟩
  · rw [nextCharIndex_none hnone]
    exact Nat.one_pos
  · rw [nextCharIndex_toText hsome]
    split_ifs <;> omega

theorem Sound.noticed {env : Env} (h : Sound env) : Sound (noticed env) where
  nextChar := by
    unfold Getopts.noticed
    split_ifs
    · exact .inl (env.unset_self _)
    · exact h.nextChar
  lastOptind := by
    rw [noticed_of_ne env (by decide)]
    exact h.lastOptind

theorem startIndex_pos (env : Env) : 0 < startIndex env := by
  unfold startIndex
  omega

theorem startIndex_lt (env : Env) : startIndex env < 2 ^ 31 := by
  have hlt : nextIndexSigned env < 2 ^ 31 := by
    unfold nextIndexSigned parseI32
    cases env optindName with
    | none => decide
    | some s =>
      rw [Option.bind_some]
      cases h : (parseI64 s).filter _ with
      | none => decide
      | some n =>
        have := (Option.filter_eq_some_iff.1 h).2
        simp only [decide_eq_true_eq] at this
        exact this.2
  unfold startIndex
  omega

def Fits (w : List Char) : Prop := w.length < 2 ^ 63

def seenOf (cmd : GetOptsCommand) (call : Call) : Seen :=
  ⟨call.env cmd.variableName, call.env optargName, call.messages⟩

theorem opterr_noticed (env : Env) : isOpterrEnabled (noticed env) = isOpterrEnabled env := by
  unfold isOpterrEnabled
  rw [noticed_of_ne env (by decide)]

theorem cursorAt_takeOption {words : List (List Char)} {o : Options}
    {c : Char} (hw : words[i - 1]? = some w) (hi : 0 < i) (hoption : isNoOption w = false)
    (hj : 0 < j) :
    let t := takeOption o c (w.drop (j + 1)) (words.drop i) i
    cursorAt words t.2.index (if t.2.flags = [] then 1 else j + 1) = t.2 := by
  dsimp only
  obtain ⟨-, ⟨ht, hflags, -⟩ | ⟨n, -, ht⟩⟩ := takeOption_cases o c (w.drop (j + 1)) (words.drop i) i
  · rw [ht]
    dsimp only
    have hlt' : j + 1 < w.length := by
      rw [ne_eq, List.drop_eq_nil_iff] at hflags
      omega
    rw [if_neg hflags, cursorAt, hw]
    exact if_pos ⟨hoption, by omega, hlt'⟩
  · rw [ht]
    dsimp only
    rw [if_pos rfl, cursorAt_one, List.drop_drop, show i + n + 1 - 1 = i + n by omega]

theorem charIndex_pos (hj : 0 < j) : 0 < charIndex w j := by
  unfold charIndex
  split_ifs
  · exact hj
  · exact Nat.one_pos

section Calls

variable {cmd : GetOptsCommand} {shellArgs words : List (List Char)} {env : Env}
  (hname : OwnName cmd.variableName) (hwords : cmd.argsToParse shellArgs = words)
  (hsound : Sound env)
include hname hwords hsound

theorem execute_next (hfits : ∀ w ∈ words, Fits w) {c' : Cursor}
    (h : nextOption ⟨cmd.optionsString, isOpterrEnabled env⟩ (startOf env words) =
      some (seen, c')) :
    let call := cmd.execute shellArgs env
    call.status = 0 ∧ seenOf cmd call = seen ∧ Sound call.env ∧
      isOpterrEnabled call.env = isOpterrEnabled env ∧ c'.index ≤ words.length + 1 ∧
      startOf call.env words = (if c'.index < 2 ^ 31 then c' else start words) ∧
      call.env optindName = some (toText c'.index) ∧
      call.env lastOptindName = some (toText c'.index) := by
  obtain ⟨⟨f, flags, rest⟩, hahead, htake⟩ := Option.map_eq_some_iff.1 h
  obtain ⟨w, hw, hoption⟩ := word_of_ahead (startIndex_pos env) (by
    change (startOf env words).ahead ≠ none
    rw [hahead]
    nofun)
  have hpos := hsound.noticed.index_pos
  obtain ⟨c, hc, hcursor⟩ := ahead_cursorAt hw (startIndex_pos env) hoption hpos
  have heq : (f, flags, rest) = (c, _, _) := Option.some.inj (hahead.symm.trans hcursor)
  have hindex : (startOf env words).index = startIndex env := cursorAt_index _ _ _
  have hback := cursorAt_takeOption (o := ⟨cmd.optionsString, isOpterrEnabled env⟩) (c := c) hw
    (startIndex_pos env) hoption (charIndex_pos (w := w) hpos)
  have hcases := takeOption_cases ⟨cmd.optionsString, isOpterrEnabled env⟩ c
    (w.drop (charIndex w (nextCharIndex (noticed env)) + 1)) (words.drop (startIndex env))
    (startIndex env)
  have hcall := @parseNextOption_option (noticed env) cmd.optionsString _ _ _ _ hw
    (startIndex_pos env) hoption hc
  rw [opterr_noticed] at hcall
  have ht : takeOption ⟨cmd.optionsString, isOpterrEnabled env⟩ c
      (w.drop (charIndex w (nextCharIndex (noticed env)) + 1)) (words.drop (startIndex env))
      (startIndex env) = (seen, c') := by
    rw [hindex] at htake
    cases heq
    exact htake
  rw [ht] at hcall hback hcases
  dsimp only at hcall hback hcases
  obtain ⟨v, hv⟩ := hcases.1
  have hpos' := startIndex_pos env
  have hilt := (List.getElem?_eq_some_iff.1 hw).1
  obtain ⟨hindexpos, hindexle⟩ : 0 < c'.index ∧ c'.index ≤ words.length + 1 := by
    obtain ⟨-, ⟨hc', -⟩ | ⟨n, hn, hc'⟩⟩ := hcases
    · rw [hc']
      exact ⟨hpos', by dsimp only; omega⟩
    · rw [hc']
      rw [List.length_drop] at hn
      exact ⟨Nat.succ_pos _, by dsimp only; omega⟩
  have hfit : charIndex w (nextCharIndex (noticed env)) + 1 < 2 ^ 64 := by
    have hlt := (List.getElem?_eq_some_iff.1 hc).1
    have hw63 : w.length < 2 ^ 63 := hfits w (List.mem_of_getElem? hw)
    omega
  rw [execute_eq hname.valid, hwords, hcall]
  dsimp only
  have hnext : ∀ env', env' nextCharName = (if c'.flags = [] then (noticed env).unset nextCharName
      else (noticed env).set nextCharName
        (toText (charIndex w (nextCharIndex (noticed env)) + 1))) nextCharName →
      nextCharIndex env' = (if c'.flags = [] then 1
        else charIndex w (nextCharIndex (noticed env)) + 1) ∧
      (env' nextCharName = none ∨ ∃ j, 1 < j ∧ env' nextCharName = some (toText j)) := by
    intro env' h'
    have hpos := charIndex_pos (w := w) hpos
    split_ifs at h' ⊢
    · rw [Env.unset_self] at h'
      exact ⟨nextCharIndex_none h', .inl h'⟩
    · rw [Env.set_self] at h'
      rw [nextCharIndex_toText h', if_pos hfit]
      exact ⟨rfl, .inr ⟨_, by omega, h'⟩⟩
  obtain ⟨hindexNext, hsoundNext⟩ := hnext _ (update_nextChar hname _)
  refine ⟨rfl, ?_, ⟨hsoundNext, .inr ⟨_, hindexpos, update_lastOptind _⟩⟩, ?_, hindexle, ?_,
    update_optind _, update_lastOptind _⟩
  · unfold seenOf
    dsimp only
    rw [update_value hname, update_optarg, hv]
    obtain ⟨value, optarg, messages⟩ := seen
    cases hv
    rfl
  · unfold isOpterrEnabled
    rw [update_opterr hname]
    split_ifs
    · rw [Env.unset_of_ne (by decide), noticed_of_ne env (by decide)]
    · rw [Env.set_of_ne (by decide), noticed_of_ne env (by decide)]
  · rw [startOf_written hindexpos (update_optind _) (update_lastOptind _), hindexNext, hback]

theorem execute_end (hle : startIndex env ≤ words.length + 1)
    (h : nextOption ⟨cmd.optionsString, isOpterrEnabled env⟩ (startOf env words) = none) :
    let call := cmd.execute shellArgs env
    call.status = 1 ∧ seenOf cmd call = ⟨some ['?'], none, []⟩ ∧ Sound call.env ∧
      call.env optindName = some (toText (startOf env words).operand) ∧
      call.env lastOptindName = some (toText (startOf env words).operand) := by
  have hahead : (startOf env words).ahead = none := Option.map_eq_none_iff.1 h
  have hcall := @parseNextOption_end _ (parseOptionSpec cmd.optionsString) _ _
    (startIndex_pos env) hle hsound.noticed.index_pos hahead
  rw [execute_eq hname.valid, hwords, hcall]
  dsimp only
  refine ⟨rfl, ?_, ⟨?_, .inr ⟨_, ?_, update_lastOptind _⟩⟩, update_optind _, update_lastOptind _⟩
  · unfold seenOf
    dsimp only
    rw [update_value hname, update_optarg]
  · rw [update_nextChar hname]
    exact hsound.noticed.nextChar
  · exact operand_pos (startIndex_pos env)

theorem execute_beyond (hlt : words.length < startIndex env) :
    let call := cmd.execute shellArgs env
    call.status = 1 ∧ seenOf cmd call = ⟨some ['?'], none, []⟩ ∧ Sound call.env ∧
      call.env lastOptindName = some (toText (words.length + 1)) := by
  have hcall : parseNextOption (noticed env) (parseOptionSpec cmd.optionsString) words
      (startIndex env) = (⟨['?'], none, words.length + 1, 1⟩, noticed env, []) := if_pos hlt
  rw [execute_eq hname.valid, hwords, hcall]
  dsimp only
  refine ⟨rfl, ?_, ⟨?_, .inr ⟨_, Nat.succ_pos _, update_lastOptind _⟩⟩, update_lastOptind _⟩
  · unfold seenOf
    dsimp only
    rw [update_value hname, update_optarg]
  · rw [update_nextChar hname]
    exact hsound.noticed.nextChar

end Calls

/-! ## Calls until one fails -/

theorem takeOption_index (o : Options) (c : Char) (flags : List Char) (rest : List (List Char))
    (i : ℕ) : i ≤ (takeOption o c flags rest i).2.index := by
  obtain ⟨-, ⟨h, -⟩ | ⟨n, -, h⟩⟩ := takeOption_cases o c flags rest i
  · rw [h]
  · rw [h]
    show i ≤ i + n + 1
    omega

theorem nextOption_index {o : Options} {c c' : Cursor}
    (h : (scanner o).next c = some (seen, c')) : c.index ≤ c'.index := by
  obtain ⟨⟨f, flags, rest⟩, -, htake⟩ := Option.map_eq_some_iff.1 h
  have := takeOption_index o f flags rest c.index
  rwa [show takeOption o f flags rest c.index = (seen, c') from htake] at this

section Loop

variable {cmd : GetOptsCommand} {shellArgs words : List (List Char)}
  (hname : OwnName cmd.variableName) (hwords : cmd.argsToParse shellArgs = words)
  (hfits : ∀ w ∈ words, Fits w)
include hname hwords hfits

theorem getoptsLoop_eq {opterr : Bool} (fuel : ℕ) (env : Env) (hsound : Sound env)
    (hopterr : isOpterrEnabled env = opterr) (hle : startIndex env ≤ words.length + 1)
    (hstop : ((scanner ⟨cmd.optionsString, opterr⟩).stop (startOf env words)).index < 2 ^ 31)
    (hfuel : (startOf env words).size < fuel) :
    ∃ env', getoptsLoop cmd shellArgs fuel env =
      some ((scanner ⟨cmd.optionsString, opterr⟩).results (startOf env words) ++
        [⟨some ['?'], none, []⟩], env') ∧
      env' optindName = some (toText
        ((scanner ⟨cmd.optionsString, opterr⟩).stop (startOf env words)).operand) := by
  induction fuel generalizing env with
  | zero => exact absurd hfuel (Nat.not_lt_zero _)
  | succ fuel ih =>
    rw [getoptsLoop]
    cases h : nextOption ⟨cmd.optionsString, opterr⟩ (startOf env words) with
    | none =>
      obtain ⟨hstatus, hseen, -, hoptind, -⟩ :=
        execute_end hname hwords hsound hle (hopterr ▸ h)
      rw [Scanner.results_of_none h, Scanner.stop_of_none h, hstatus, if_neg Nat.one_ne_zero]
      exact ⟨_, by rw [← hseen]; rfl, hoptind⟩
    | some next =>
      obtain ⟨seen, c'⟩ := next
      obtain ⟨hstatus, hseen, hsound', hopterr', hindexle, hstart, -⟩ :=
        execute_next hname hwords hsound hfits (hopterr ▸ h)
      have hscan : (scanner ⟨cmd.optionsString, opterr⟩).next (startOf env words) =
        some (seen, c') := h
      have hstop' := Scanner.stop_of_some hscan
      have hindex : c'.index < 2 ^ 31 :=
        Nat.lt_of_le_of_lt (Scanner.le_stop nextOption_index c') (hstop' ▸ hstop)
      rw [if_pos hindex] at hstart
      have hstartIndex : startIndex (cmd.execute shellArgs env).env = c'.index :=
        (cursorAt_index _ _ _).symm.trans (congrArg Cursor.index hstart)
      have hsize := (scanner ⟨cmd.optionsString, opterr⟩).next_lt hscan
      obtain ⟨env', hloop, hoptind⟩ := ih (cmd.execute shellArgs env).env hsound'
        (hopterr'.trans hopterr) (hstartIndex ▸ hindexle) (by rwa [hstart, ← hstop'])
        (by rw [hstart]; exact Nat.lt_of_lt_of_le hsize (Nat.le_of_lt_succ hfuel))
      rw [hstart] at hloop hoptind
      rw [Scanner.results_of_some hscan, hstop']
      refine ⟨env', ?_, hoptind⟩
      dsimp only
      rw [if_pos hstatus, hloop]
      exact congrArg some (by rw [← hseen]; rfl)

theorem getoptsLoop_eq_none {opterr : Bool}
    (hstart : 2 ^ 31 ≤ ((scanner ⟨cmd.optionsString, opterr⟩).stop (start words)).index)
    (fuel : ℕ) (env : Env) (hsound : Sound env) (hopterr : isOpterrEnabled env = opterr)
    (hstop : 2 ^ 31 ≤ ((scanner ⟨cmd.optionsString, opterr⟩).stop (startOf env words)).index) :
    getoptsLoop cmd shellArgs fuel env = none := by
  induction fuel generalizing env with
  | zero => rfl
  | succ fuel ih =>
    rw [getoptsLoop]
    cases h : nextOption ⟨cmd.optionsString, opterr⟩ (startOf env words) with
    | none =>
      rw [Scanner.stop_of_none h, startOf, cursorAt_index] at hstop
      exact absurd (startIndex_lt env) (Nat.not_lt.2 hstop)
    | some next =>
      obtain ⟨seen, c'⟩ := next
      obtain ⟨hstatus, -, hsound', hopterr', -, hnext, -⟩ :=
        execute_next hname hwords hsound hfits (hopterr ▸ h)
      have hstop' : (scanner ⟨cmd.optionsString, opterr⟩).stop (startOf env words) = _ :=
        Scanner.stop_of_some h
      dsimp only
      rw [if_pos hstatus, ih _ hsound' (hopterr'.trans hopterr)]
      · rfl
      · rw [hnext]
        split_ifs
        · rwa [← hstop']
        · exact hstart

end Loop

/-! ## Where calls start -/

/-- The last call was left inside the first word, and its place is inside the first word now. -/
def MidFirstWord (env : Env) (words : List (List Char)) : Prop :=
  (env lastOptindName).bind parseI32 = some 1 ∧ ∃ w rest, words = w :: rest ∧
    isNoOption w = false ∧ 1 < nextCharIndex env ∧ nextCharIndex env < w.length

/-- The variables once a script has set `OPTIND` to 1. -/
def restarted (env : Env) : Env := env.set optindName ['1']

theorem restarted_of_ne (env : Env) {name : List Char} (h : name ≠ optindName) :
    restarted env name = env name := Env.set_of_ne h

theorem nextIndexSigned_restarted (env : Env) : nextIndexSigned (restarted env) = 1 := by
  unfold nextIndexSigned restarted
  rw [Env.set_self]
  decide

theorem startIndex_restarted (env : Env) : startIndex (restarted env) = 1 := by
  unfold startIndex
  rw [nextIndexSigned_restarted]
  rfl

theorem nextCharIndex_congr {env env' : Env} (h : env nextCharName = env' nextCharName) :
    nextCharIndex env = nextCharIndex env' := by
  unfold nextCharIndex
  rw [h]

theorem startOf_restarted (env : Env) (words : List (List Char)) :
    startOf (restarted env) words = cursorAt words 1
      (if (env lastOptindName).bind parseI32 = some 1 then nextCharIndex env else 1) := by
  unfold startOf noticed
  rw [startIndex_restarted, nextIndexSigned_restarted, restarted_of_ne env (by decide)]
  by_cases h : (env lastOptindName).bind parseI32 = some 1
  · rw [if_pos h, if_neg (not_not.2 h), nextCharIndex_congr (restarted_of_ne env (by decide))]
  · rw [if_neg h, if_pos h, nextCharIndex_none (Env.unset_self _ _)]

theorem startOf_restarted_start {env : Env} {words : List (List Char)}
    (h : ¬MidFirstWord env words) : startOf (restarted env) words = start words := by
  rw [startOf_restarted]
  split_ifs with hlast
  · unfold cursorAt
    cases words with
    | nil => rfl
    | cons w rest => exact if_neg fun hmid => h ⟨hlast, w, rest, rfl, hmid⟩
  · exact cursorAt_one words 1

theorem startOf_restarted_mid {env : Env}
    (hlast : (env lastOptindName).bind parseI32 = some 1) (hoption : isNoOption w = false)
    (hone : 1 < nextCharIndex env) (hlt : nextCharIndex env < w.length) :
    startOf (restarted env) (w :: rest) = ⟨w.drop (nextCharIndex env), rest, 1⟩ := by
  rw [startOf_restarted, if_pos hlast]
  exact if_pos ⟨hoption, hone, hlt⟩

/-- The variables a shell can come to: a script sets the ones it knows, and calls what is allowed. -/
inductive Reached (allowed : GetOptsCommand → List (List Char) → Prop) : Env → Prop
  | fresh {env : Env} : env nextCharName = none → env lastOptindName = none → Reached allowed env
  | assign {env : Env} {name : List Char} (value : Option (List Char)) : Reached allowed env →
    name ≠ nextCharName → name ≠ lastOptindName →
    Reached allowed (Function.update env name value)
  | call {env : Env} {cmd : GetOptsCommand} {shellArgs : List (List Char)} : Reached allowed env →
    allowed cmd shellArgs → OwnName cmd.variableName →
    (∀ w ∈ cmd.argsToParse shellArgs, Fits w) → Reached allowed (cmd.execute shellArgs env).env

section Reached

variable {allowed : GetOptsCommand → List (List Char) → Prop} {env : Env}

theorem Reached.sound (h : Reached allowed env) : Sound env := by
  induction h with
  | fresh hnext hlast => exact ⟨.inl hnext, .inl hlast⟩
  | assign value _ hnext hlast ih =>
    refine ⟨?_, ?_⟩
    · rw [Function.update_of_ne hnext.symm]
      exact ih.nextChar
    · rw [Function.update_of_ne hlast.symm]
      exact ih.lastOptind
  | @call env cmd shellArgs _ _ hname hfits ih =>
    by_cases hle : startIndex env ≤ (cmd.argsToParse shellArgs).length + 1
    · cases h : nextOption ⟨cmd.optionsString, isOpterrEnabled env⟩
          (startOf env (cmd.argsToParse shellArgs)) with
      | none => exact (execute_end hname rfl ih hle h).2.2.1
      | some next => exact (execute_next hname rfl ih hfits h).2.2.1
    · exact (execute_beyond hname rfl ih (by omega)).2.2.1

def ReadFlags (optstring : List Char) (words : List (List Char)) (env : Env) : Prop :=
  ∀ w rest, words = w :: rest → (env lastOptindName).bind parseI32 = some 1 →
    isNoOption w = false → 1 < nextCharIndex env → nextCharIndex env < w.length →
    ∀ c ∈ (w.take (nextCharIndex env)).drop 1, takesArgument optstring c ≠ some true

theorem parseI32_toText_one (h : parseI32 (toText n) = some 1) : n = 1 := by
  rw [parseI32_toText] at h
  split_ifs at h
  have := Option.some.inj h
  omega

theorem ReadFlags.before {optstring : List Char} {words : List (List Char)}
    (h : ReadFlags optstring words env) (hsound : Sound env)
    (hcons : words = w :: rest) (hoption : isNoOption w = false)
    (hindex : startIndex env = 1) :
    ∀ c ∈ (w.take (charIndex w (nextCharIndex (noticed env)))).drop 1,
      takesArgument optstring c ≠ some true := by
  intro c hc
  unfold charIndex at hc
  have hone : ∀ c, c ∉ (w.take 1).drop 1 := by
    intro c hc
    have := List.length_pos_of_mem hc
    rw [List.length_drop, List.length_take] at this
    omega
  split_ifs at hc with hlt
  · have hnoticed : noticed env = env ∧ (env lastOptindName).bind parseI32 =
        some (nextIndexSigned env) := by
      unfold noticed at hc ⊢
      split_ifs at hc ⊢ with hne
      · rw [nextCharIndex_none (Env.unset_self _ _)] at hc
        exact absurd hc (hone c)
      · exact ⟨rfl, not_not.1 hne⟩
    rw [hnoticed.1] at hc hlt
    have hlast : (env lastOptindName).bind parseI32 = some 1 := by
      have hsigned := hnoticed.2
      rcases hsound.lastOptind with hnone | ⟨n, hn, hsome⟩
      · rw [hnone] at hsigned
        cases hsigned
      · rw [hsome, Option.bind_some, parseI32_toText] at hsigned
        rw [hsome, Option.bind_some, parseI32_toText]
        unfold startIndex at hindex
        split_ifs at hsigned ⊢ with hlt31
        · have := Option.some.inj hsigned
          congr 1
          omega
    by_cases hj : 1 < nextCharIndex env
    · exact h w rest hcons hlast hoption hj hlt c hc
    · have := hsound.index_pos
      rw [show nextCharIndex env = 1 by omega] at hc
      exact absurd hc (hone c)
  · exact absurd hc (hone c)

theorem call_index {k : ℕ}
    (hoptind : env optindName = some (toText n)) (hlast : env lastOptindName = some (toText n))
    (hn : n = 1) (hoption : isNoOption w = false) (hone : 1 < nextCharIndex env)
    (hlt : nextCharIndex env < w.length)
    (hstart : (startOf env (w :: rest)).flags = w.drop k) : nextCharIndex env = k := by
  subst hn
  rw [startOf_written Nat.one_pos hoptind hlast, if_pos (by decide)] at hstart
  have hcursor : cursorAt (w :: rest) 1 (nextCharIndex env) =
      ⟨w.drop (nextCharIndex env), rest, 1⟩ := if_pos ⟨hoption, hone, hlt⟩
  rw [hcursor] at hstart
  have := congrArg List.length hstart
  rw [List.length_drop, List.length_drop] at this
  omega

theorem ReadFlags.call {cmd : GetOptsCommand} {shellArgs words : List (List Char)}
    (hname : OwnName cmd.variableName) (hwords : cmd.argsToParse shellArgs = words)
    (hsound : Sound env) (hfits : ∀ w ∈ words, Fits w)
    (ih : ReadFlags cmd.optionsString words env) :
    ReadFlags cmd.optionsString words (cmd.execute shellArgs env).env := by
  intro w rest hcons hlast hoption hone hlt
  have hpos := startIndex_pos env
  have hwritten : ∀ {n : ℕ}, (cmd.execute shellArgs env).env lastOptindName = some (toText n) →
      n = 1 := fun h => by
    rw [h] at hlast
    exact parseI32_toText_one hlast
  have hword : startIndex env = 1 → words[startIndex env - 1]? = some w := fun h => by
    rw [h, hcons]
    rfl
  by_cases hle : startIndex env ≤ words.length + 1
  · cases h : nextOption ⟨cmd.optionsString, isOpterrEnabled env⟩ (startOf env words) with
    | none =>
      obtain ⟨-, -, -, -, hn⟩ := execute_end hname hwords hsound hle h
      have hoperand := hwritten hn
      have hindex : startIndex env = 1 := by
        unfold Cursor.operand at hoperand
        rw [startOf, cursorAt_index] at hoperand
        split_ifs at hoperand <;> omega
      obtain ⟨c, -, hahead⟩ := ahead_cursorAt (hword hindex) hpos hoption
        hsound.noticed.index_pos
      have hnone : (startOf env words).ahead = none := Option.map_eq_none_iff.1 h
      exact nomatch hnone.symm.trans hahead
    | some next =>
      obtain ⟨seen, c'⟩ := next
      obtain ⟨-, -, -, -, -, hnext, hoptind, hn⟩ := execute_next hname hwords hsound hfits h
      have hindex' := hwritten hn
      have hindex : startIndex env = 1 := by
        have := nextOption_index h
        rw [startOf, cursorAt_index, hindex'] at this
        omega
      obtain ⟨c, hc, hahead⟩ := ahead_cursorAt (hword hindex) hpos hoption
        hsound.noticed.index_pos
      have hk := charIndex_pos (w := w) hsound.noticed.index_pos
      have htake : takeOption ⟨cmd.optionsString, isOpterrEnabled env⟩ c
          (w.drop (charIndex w (nextCharIndex (noticed env)) + 1)) (words.drop (startIndex env))
          (startIndex env) = (seen, c') := by
        unfold nextOption at h
        rw [startOf, hahead, cursorAt_index] at h
        exact Option.some.inj h
      obtain ⟨-, ⟨hc', -, hflag⟩ | ⟨n, -, hc'⟩⟩ := takeOption_cases
        ⟨cmd.optionsString, isOpterrEnabled env⟩ c
        (w.drop (charIndex w (nextCharIndex (noticed env)) + 1)) (words.drop (startIndex env))
        (startIndex env)
      · rw [htake] at hc'
        subst hcons
        have hj := call_index (k := charIndex w (nextCharIndex (noticed env)) + 1) hoptind hn
          hindex' hoption hone hlt (by rw [hnext, if_pos (by omega), show c' = _ from hc'])
        rw [hj, List.take_add_one, hc, List.drop_append_of_le_length (by
          rw [List.length_take, Nat.min_eq_left (List.getElem?_eq_some_iff.1 hc).1.le]
          exact hk)]
        intro x hx
        rcases List.mem_append.1 hx with hx | hx
        · exact ih.before hsound rfl hoption hindex x hx
        · rw [show x = c from List.mem_singleton.1 hx]
          exact hflag
      · rw [htake] at hc'
        rw [show c' = _ from hc'] at hindex'
        change startIndex env + n + 1 = 1 at hindex'
        omega
  · have := hwritten (execute_beyond hname hwords hsound (by omega)).2.2.2
    rw [hcons, List.length_cons] at this
    omega

theorem Reached.readFlags (h : Reached allowed env) {optstring : List Char}
    {words : List (List Char)}
    (hallowed : ∀ c a, allowed c a → c.optionsString = optstring ∧ c.argsToParse a = words) :
    ReadFlags optstring words env := by
  induction h with
  | fresh _ hlast =>
    intro w rest _ h
    rw [hlast] at h
    cases h
  | @assign env name value _ hnext hlast ih =>
    intro w rest hcons
    rw [Function.update_of_ne hlast.symm, nextCharIndex_congr
      (Function.update_of_ne hnext.symm value env)]
    exact ih w rest hcons
  | call hreached hcall hname hfits ih =>
    obtain ⟨hoptions, hwords⟩ := hallowed _ _ hcall
    rw [hwords] at hfits
    rw [← hoptions] at ih ⊢
    exact ih.call hname hwords hreached.sound hfits

end Reached

/-! ## Enumeration -/

section Scan

variable {o : Options} {c c' : Cursor}

theorem results_congr (h : nextOption o c = nextOption o c') (hsome : nextOption o c ≠ none) :
    (scanner o).results c = (scanner o).results c' ∧
      (scanner o).stop c = (scanner o).stop c' := by
  obtain ⟨⟨seen, next⟩, hnext⟩ := Option.ne_none_iff_exists'.1 hsome
  have h₁ : (scanner o).next c = some (seen, next) := hnext
  have h₂ : (scanner o).next c' = some (seen, next) := h.symm.trans hnext
  rw [Scanner.results_of_some h₁, Scanner.results_of_some h₂, Scanner.stop_of_some h₁,
    Scanner.stop_of_some h₂]
  exact ⟨rfl, rfl⟩

theorem results_flags {w : List Char} {rest : List (List Char)} (hoption : isNoOption w = false)
    {j : ℕ} (hj : 0 < j) (hlt : j < w.length)
    (hflags : ∀ c ∈ (w.take j).drop 1, takesArgument o.optstring c ≠ some true) :
    ((scanner o).results (start (w :: rest))).length =
        (j - 1) + ((scanner o).results ⟨w.drop j, rest, 1⟩).length ∧
      (scanner o).stop (start (w :: rest)) = (scanner o).stop ⟨w.drop j, rest, 1⟩ := by
  induction j with
  | zero => exact absurd hj (Nat.lt_irrefl _)
  | succ j ih =>
    by_cases hzero : j = 0
    · subst hzero
      obtain ⟨f, flags, rfl, hdashes⟩ := isNoOption_eq_false hoption
      have hnext : nextOption o (start (('-' :: f :: flags) :: rest)) =
          nextOption o ⟨f :: flags, rest, 1⟩ := by
        have hahead : (start (('-' :: f :: flags) :: rest)).ahead = some (f, flags, rest) :=
          if_neg hdashes
        unfold nextOption
        rw [hahead]
        rfl
      obtain ⟨hresults, hstop⟩ := results_congr hnext (by rw [hnext]; nofun)
      rw [hresults, hstop]
      exact ⟨(Nat.zero_add _).symm, rfl⟩
    · have hjlt : j < w.length := Nat.lt_of_succ_lt hlt
      have htake : (w.take (j + 1)).drop 1 = (w.take j).drop 1 ++ [w[j]] := by
        rw [List.take_add_one, List.getElem?_eq_getElem hjlt, List.drop_append_of_le_length]
        · rfl
        · rw [List.length_take]
          omega
      rw [htake] at hflags
      obtain ⟨hresults, hstop⟩ := ih (Nat.pos_of_ne_zero hzero) hjlt
        (fun c hc => hflags c (List.mem_append_left _ hc))
      have hflag := hflags w[j] (List.mem_append_right _ List.mem_cons_self)
      have hbehind : w.drop (j + 1) ≠ [] := by
        rw [ne_eq, List.drop_eq_nil_iff]
        omega
      obtain ⟨seen, hnext⟩ : ∃ seen, (scanner o).next ⟨w.drop j, rest, 1⟩ =
          some (seen, ⟨w.drop (j + 1), rest, 1⟩) := by
        have hahead : Cursor.ahead ⟨w.drop j, rest, 1⟩ = some (w[j], w.drop (j + 1), rest) := by
          unfold Cursor.ahead
          rw [List.drop_eq_getElem_cons hjlt]
        show ∃ seen, nextOption o _ = _
        unfold nextOption
        rw [hahead]
        show ∃ seen, some (takeOption o w[j] (w.drop (j + 1)) rest 1) = _
        unfold takeOption
        rw [if_neg hbehind]
        cases htakes : takesArgument o.optstring w[j] with
        | none => exact ⟨_, rfl⟩
        | some takes =>
          cases takes with
          | false => exact ⟨_, rfl⟩
          | true => exact absurd htakes hflag
      rw [hresults, hstop, Scanner.results_of_some hnext, Scanner.stop_of_some hnext,
        List.length_cons]
      exact ⟨by omega, rfl⟩

end Scan

/-- Calls from `OPTIND=1` on, until one fails, answer what the scanner answers; they are no more than
one more than the words have characters, and `OPTIND` is then the index of the first operand. -/
def Enumerates (cmd : GetOptsCommand) (shellArgs : List (List Char)) (env : Env) : Prop :=
  let words := cmd.argsToParse shellArgs
  let scan := scanner ⟨cmd.optionsString, isOpterrEnabled env⟩
  ∃ env', getoptsLoop cmd shellArgs ((words.map List.length).sum + 1) (restarted env) =
    some (scan.results (start words) ++ [⟨some ['?'], none, []⟩], env') ∧
    env' optindName = some (toText (scan.stop (start words)).operand)

theorem size_start (words : List (List Char)) :
    (start words).size = (words.map List.length).sum := Nat.zero_add _

/-- **The options of a script.** Calls from `OPTIND=1` on enumerate the options of words whose first
operand has an index of 32 bits, unless the last call was left inside a first word; and of a shell
that has only called `getopts` for these words, they do so in no other case. -/
theorem enumerates_iff {allowed : GetOptsCommand → List (List Char) → Prop} {env : Env}
    (hreached : Reached allowed env) {cmd : GetOptsCommand} (hname : OwnName cmd.variableName)
    {shellArgs : List (List Char)} (hfits : ∀ w ∈ cmd.argsToParse shellArgs, Fits w) :
    (¬MidFirstWord env (cmd.argsToParse shellArgs) ∧
        ((scanner ⟨cmd.optionsString, isOpterrEnabled env⟩).stop
          (start (cmd.argsToParse shellArgs))).index < 2 ^ 31 → Enumerates cmd shellArgs env) ∧
      ((∀ c a, allowed c a → c.optionsString = cmd.optionsString ∧
          c.argsToParse a = cmd.argsToParse shellArgs) →
        Enumerates cmd shellArgs env → ¬MidFirstWord env (cmd.argsToParse shellArgs) ∧
          ((scanner ⟨cmd.optionsString, isOpterrEnabled env⟩).stop
            (start (cmd.argsToParse shellArgs))).index < 2 ^ 31) := by
  have hsound : Sound (restarted env) := by
    have h := hreached.sound
    exact ⟨by rw [restarted_of_ne env (by decide)]; exact h.nextChar,
      by rw [restarted_of_ne env (by decide)]; exact h.lastOptind⟩
  have hopterr : isOpterrEnabled (restarted env) = isOpterrEnabled env := by
    unfold isOpterrEnabled
    rw [restarted_of_ne env (by decide)]
  have hle : startIndex (restarted env) ≤ (cmd.argsToParse shellArgs).length + 1 := by
    rw [startIndex_restarted]
    omega
  constructor
  · rintro ⟨hmid, hstop⟩
    have hstart := startOf_restarted_start hmid
    have := getoptsLoop_eq hname rfl hfits ((cmd.argsToParse shellArgs).map List.length).sum.succ
      (restarted env) hsound hopterr hle (by rwa [hstart])
      (by rw [hstart, size_start]; exact Nat.lt_succ_self _)
    rwa [hstart] at this
  · rintro hallowed ⟨env', hloop, -⟩
    have hflags := hreached.readFlags hallowed
    have hresults : MidFirstWord env (cmd.argsToParse shellArgs) →
        ((scanner ⟨cmd.optionsString, isOpterrEnabled env⟩).results
            (startOf (restarted env) (cmd.argsToParse shellArgs))).length <
          ((scanner ⟨cmd.optionsString, isOpterrEnabled env⟩).results
            (start (cmd.argsToParse shellArgs))).length ∧
        (scanner ⟨cmd.optionsString, isOpterrEnabled env⟩).stop
            (startOf (restarted env) (cmd.argsToParse shellArgs)) =
          (scanner ⟨cmd.optionsString, isOpterrEnabled env⟩).stop
            (start (cmd.argsToParse shellArgs)) ∧
        (startOf (restarted env) (cmd.argsToParse shellArgs)).size ≤
          ((cmd.argsToParse shellArgs).map List.length).sum := by
      rintro ⟨hlast, w, rest, hcons, hoption, hone, hlt⟩
      obtain ⟨hlength, hstop⟩ := @results_flags ⟨cmd.optionsString, isOpterrEnabled env⟩
        _ rest hoption _ hreached.sound.index_pos hlt
        (hflags w rest hcons hlast hoption hone hlt)
      rw [hcons, startOf_restarted_mid hlast hoption hone hlt, hlength, hstop]
      refine ⟨by omega, rfl, ?_⟩
      show (w.drop _).length + (rest.map List.length).sum ≤ w.length + (rest.map List.length).sum
      rw [List.length_drop]
      omega
    have hstop : ((scanner ⟨cmd.optionsString, isOpterrEnabled env⟩).stop
        (start (cmd.argsToParse shellArgs))).index < 2 ^ 31 := by
      by_contra hge
      rw [not_lt] at hge
      have hnone := getoptsLoop_eq_none hname rfl hfits hge
        (((cmd.argsToParse shellArgs).map List.length).sum + 1) (restarted env) hsound hopterr (by
          by_cases hmid : MidFirstWord env (cmd.argsToParse shellArgs)
          · rwa [(hresults hmid).2.1]
          · rwa [startOf_restarted_start hmid])
      exact nomatch hnone.symm.trans hloop
    refine ⟨fun hmid => ?_, hstop⟩
    obtain ⟨hlength, hstop', hsize⟩ := hresults hmid
    obtain ⟨env'', hloop', -⟩ := getoptsLoop_eq hname rfl hfits
      (((cmd.argsToParse shellArgs).map List.length).sum + 1) (restarted env) hsound hopterr hle
      (by rwa [hstop']) (Nat.lt_succ_of_le hsize)
    have := congrArg (fun r => r.1.length) (Option.some.inj (hloop'.symm.trans hloop))
    simp only [List.length_append] at this
    omega

/-- `getopts ab x`. -/
abbrev twoFlags : GetOptsCommand := ⟨['a', 'b'], ['x'], [['-', 'a', 'b']]⟩

theorem ownName_x : OwnName ['x'] :=
  ⟨by decide, by decide, by decide, by decide, by decide, by decide⟩

theorem scan_twoFlags (opterr : Bool) :
    ((scanner ⟨['a', 'b'], opterr⟩).results (start [['-', 'a', 'b']])).length = 2 ∧
      (scanner ⟨['a', 'b'], opterr⟩).stop (start [['-', 'a', 'b']]) = ⟨[], [], 2⟩ := by
  have h₁ : (scanner ⟨['a', 'b'], opterr⟩).next (start [['-', 'a', 'b']]) =
      some (⟨some ['a'], none, []⟩, ⟨['b'], [], 1⟩) := rfl
  have h₂ : (scanner ⟨['a', 'b'], opterr⟩).next ⟨['b'], [], 1⟩ =
      some (⟨some ['b'], none, []⟩, ⟨[], [], 2⟩) := rfl
  have h₃ : (scanner ⟨['a', 'b'], opterr⟩).next ⟨[], [], 2⟩ = none := rfl
  rw [Scanner.results_of_some h₁, Scanner.results_of_some h₂, Scanner.results_of_none h₃,
    Scanner.stop_of_some h₁, Scanner.stop_of_some h₂, Scanner.stop_of_none h₃]
  exact ⟨rfl, rfl⟩

/-- In a fresh shell `-ab` is enumerated. -/
theorem enumerates_fresh : Enumerates twoFlags [] fun _ => none :=
  (@enumerates_iff (fun _ _ => False) _ (.fresh rfl rfl) twoFlags ownName_x
    [] (by simp [GetOptsCommand.argsToParse, Fits])).1
    ⟨fun h => (nomatch h.1), by
      have hstop := (scan_twoFlags (isOpterrEnabled fun _ => none)).2
      change ((scanner _).stop (start [['-', 'a', 'b']])).index < 2 ^ 31
      rw [hstop]
      decide⟩

/-- Behind a call that has read `-a` of `-ab`, `OPTIND=1` does not start over. -/
theorem not_enumerates : ¬ Enumerates twoFlags [] (twoFlags.execute [] fun _ => none).env := by
  rintro ⟨env', hloop, -⟩
  have hcalls : (getoptsLoop twoFlags [] 4 (restarted (twoFlags.execute [] fun _ => none).env)).map
      (fun r => r.1.length) = some 2 := by decide
  have := congrArg (fun r => r.map fun r => r.1.length) hloop
  rw [show (((twoFlags.argsToParse []).map List.length).sum + 1) = 4 from rfl, hcalls] at this
  have hlength := Option.some.inj this
  change 2 = ((scanner _).results (start [['-', 'a', 'b']]) ++ [_]).length at hlength
  rw [List.length_append] at hlength
  have hscan := (scan_twoFlags (isOpterrEnabled (twoFlags.execute [] fun _ => none).env)).1
  change ((scanner ⟨twoFlags.optionsString, _⟩).results _).length = 2 at hscan
  rw [hscan] at hlength
  cases hlength

end Seahaven.Getopts
