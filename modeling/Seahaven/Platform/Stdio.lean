import Seahaven.Lossy

/-!
# A session's standard streams

1. `OutputLog`: one log of segments, from which each stream and the merge of both are read.
2. `StdinSource`: a fixed input and a cursor into it.
-/

namespace Seahaven

namespace Platform

/-! ## The output log -/

/-- A standard output stream. -/
inductive Stream
  | stdout
  | stderr
  deriving DecidableEq

/-- One contiguous write to one stream. -/
structure Segment where
  stream : Stream
  bytes : List UInt8

/-- A job's captured output, the last segment first. -/
structure OutputLog where
  segments : List Segment

namespace OutputLog

/-- `OutputLog::new`. -/
def new : OutputLog := ⟨[]⟩

/-- `OutputLog::write`: a write to the stream written last joins its segment. -/
def write (log : OutputLog) (stream : Stream) (bytes : List UInt8) : OutputLog :=
  match log.segments with
  | last :: older =>
    if last.stream = stream then ⟨⟨last.stream, last.bytes ++ bytes⟩ :: older⟩
    else ⟨⟨stream, bytes⟩ :: last :: older⟩
  | [] => ⟨[⟨stream, bytes⟩]⟩

/-- `OutputLog::collect`. -/
def collect (log : OutputLog) (stream : Stream) : List UInt8 :=
  log.segments.reverse.flatMap fun s => if s.stream = stream then s.bytes else []

/-- `OutputLog::stdout`. -/
def stdout (log : OutputLog) : List UInt8 := log.collect .stdout

/-- `OutputLog::stderr`. -/
def stderr (log : OutputLog) : List UInt8 := log.collect .stderr

end OutputLog

/-! ## The input -/

/-- `'\n'`. -/
abbrev newline : UInt8 := 10

/-- The bytes a guest reads from stdin, with a cursor. -/
structure StdinSource where
  bytes : List UInt8
  cursor : Nat
  cursor_le : cursor ≤ bytes.length

namespace StdinSource

/-- `StdinSource::new`. -/
def new (bytes : List UInt8) : StdinSource := ⟨bytes, 0, Nat.zero_le _⟩

def rest (s : StdinSource) : List UInt8 := s.bytes.drop s.cursor

theorem length_rest (s : StdinSource) : s.cursor + s.rest.length = s.bytes.length := by
  have := s.cursor_le
  rw [rest, List.length_drop]
  omega

/-- Move the cursor on over `n` of the bytes still to be read. -/
def skip (s : StdinSource) (n : Nat) (hn : n ≤ s.rest.length) : StdinSource :=
  ⟨s.bytes, s.cursor + n, by have := s.length_rest; omega⟩

theorem rest_skip (s : StdinSource) {n : Nat} (hn : n ≤ s.rest.length) :
    (s.skip n hn).rest = s.rest.drop n := by
  rw [rest, rest, skip, List.drop_drop]

/-- `if line.ends_with('\r') { line.pop(); }`. -/
def stripCr (line : OsStr) : OsStr :=
  if line.getLast? = some (.chr '\r') then line.dropLast else line

/-- `StdinSource::read_line`. -/
def readLine (s : StdinSource) : Option OsStr × StdinSource :=
  if s.cursor ≥ s.bytes.length then (none, s)
  else
    match hn : s.rest.findIdx? (· == newline) with
    | some nl =>
      (some (stripCr (fromUtf8Lossy (s.rest.take nl))),
        s.skip (nl + 1) (List.findIdx?_eq_some_iff_getElem.1 hn).1)
    | none => (some (stripCr (fromUtf8Lossy s.rest)), s.skip s.rest.length (Nat.le_refl _))

/-- `StdinSource::read_to_end`. -/
def readToEnd (s : StdinSource) : List UInt8 × StdinSource :=
  (s.rest, s.skip s.rest.length (Nat.le_refl _))

/-- `StdinSource::read_chunk`. -/
def readChunk (s : StdinSource) : Option (List UInt8) × StdinSource :=
  if s.cursor ≥ s.bytes.length then (none, s)
  else (some s.readToEnd.1, s.readToEnd.2)

theorem rest_eq_nil (s : StdinSource) : s.rest = [] ↔ s.cursor ≥ s.bytes.length := by
  have := s.length_rest
  rw [← List.length_eq_zero_iff]
  omega

@[simp] theorem rest_new (b : List UInt8) : (new b).rest = b := rfl

@[simp] theorem readToEnd_fst (s : StdinSource) : s.readToEnd.1 = s.rest := rfl

@[simp] theorem rest_readToEnd (s : StdinSource) : s.readToEnd.2.rest = [] := by
  rw [readToEnd, rest_skip, List.drop_length]

theorem readToEnd_of_rest_nil {s : StdinSource} (h : s.rest = []) : s.readToEnd.2 = s := by
  obtain ⟨bytes, cursor, hc⟩ := s
  simp [readToEnd, skip, h]

/-! ### Lines -/

def textOf (body : List UInt8) : OsStr := stripCr (fromUtf8Lossy body)

/-- `piece` is a line that reads as `line`: its bytes, and then a newline or the end of the
input. -/
def IsLine (piece rest : List UInt8) (line : OsStr) : Prop :=
  ∃ body, newline ∉ body ∧ line = textOf body ∧
    (piece = body ++ [newline] ∨ piece = body ∧ body ≠ [] ∧ rest = [])

/-- **What reading a line takes.** It answers nothing at the end of the input only, and otherwise
takes exactly one line. -/
theorem readLine_spec (s : StdinSource) :
    (s.rest = [] ∧ s.readLine = (none, s)) ∨
    ∃ piece line, s.readLine.1 = some line ∧ s.rest = piece ++ s.readLine.2.rest ∧
      IsLine piece s.readLine.2.rest line := by
  by_cases hend : s.cursor ≥ s.bytes.length
  · exact .inl ⟨s.rest_eq_nil.2 hend, if_pos hend⟩
  · right
    have hne : s.rest ≠ [] := fun h => hend (s.rest_eq_nil.1 h)
    rw [readLine, if_neg hend]
    split
    · rename_i nl hn
      obtain ⟨hlt, hat, hbefore⟩ := List.findIdx?_eq_some_iff_getElem.1 hn
      refine ⟨s.rest.take (nl + 1), _, rfl, ?_, s.rest.take nl, ?_, rfl, .inl ?_⟩
      · dsimp only
        rw [rest_skip, List.take_append_drop]
      · intro hmem
        obtain ⟨i, hi, hit⟩ := List.mem_take_iff_getElem.1 hmem
        exact hbefore i (by omega) (by rw [hit]; rfl)
      · rw [List.take_succ_eq_append_getElem hlt, eq_of_beq hat]
    · rename_i hn
      refine ⟨s.rest, _, rfl, ?_, s.rest, ?_, rfl, .inr ⟨rfl, hne, ?_⟩⟩
      · dsimp only
        rw [rest_skip, List.drop_length, List.append_nil]
      · intro hmem
        simpa using List.findIdx?_eq_none_iff.1 hn newline hmem
      · dsimp only
        rw [rest_skip, List.drop_length]

theorem readChunk_of_nil {s : StdinSource} (h : s.rest = []) : s.readChunk = (none, s) :=
  if_pos (s.rest_eq_nil.1 h)

theorem readChunk_of_ne_nil {s : StdinSource} (h : s.rest ≠ []) :
    s.readChunk = (some s.rest, s.readToEnd.2) :=
  if_neg fun hend => h (s.rest_eq_nil.2 hend)

end StdinSource

end Platform

end Seahaven
