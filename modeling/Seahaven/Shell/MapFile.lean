import Seahaven.Lossy
import Seahaven.Shell.ReadInput
import Seahaven.Shell.Reprint

/-!
# Reading entries with `mapfile`

`mapfile` divides its input behind each delimiter and decodes the entries one by one. Ctrl+C ends an
entry, and at the start of an entry it ends the input, as Ctrl+D does there.

1. `readEntry` and `readEntriesLoop`: the two loops. `entriesFrom`: what they divide a text into.
2. `entriesFrom_plain`, `entriesFrom_ctrlC`, `entriesFrom_ctrlD`: how the keys divide it.
3. `input_kept`: what `read` and `mapfile` keep of their input.
-/

namespace Seahaven.ReadLine

/-! ## The loops -/

structure MapFileCommand where
  delimiter : Option (List Char)
  maxCount : ℤ
  skipCount : ℤ
  removeDelimiter : Bool

def MapFileCommand.delimiterByte (cmd : MapFileCommand) : UInt8 :=
  match cmd.delimiter with
  | some d => (encode d).headD 0
  | none => 0x0A

/-- One entry, whether a delimiter ends it, and what it leaves of the input. -/
def readEntry (delimiter : UInt8) : List UInt8 → List UInt8 → List UInt8 × Bool × List UInt8
  | line, [] => (line, false, [])
  | line, b :: rest =>
    if b = 0x03 then (line, false, rest)
    else if b = 0x04 ∧ line = [] then (line, false, rest)
    else if b = delimiter then (line ++ [b], true, rest)
    else readEntry delimiter (line ++ [b]) rest

theorem readEntry_lt (delimiter : UInt8) (input line : List UInt8) :
    let (entry, sawDelimiter, rest) := readEntry delimiter line input
    rest.length + entry.length ≤ input.length + line.length ∧
      (sawDelimiter = true → rest.length < input.length) := by
  induction input generalizing line with
  | nil => exact ⟨Nat.le_refl _, fun h => absurd h (by decide)⟩
  | cons b rest ih =>
    rw [readEntry]
    split_ifs
    · exact ⟨by rw [List.length_cons]; omega, fun h => absurd h (by decide)⟩
    · exact ⟨by rw [List.length_cons]; omega, fun h => absurd h (by decide)⟩
    · exact ⟨by simp only [List.length_append, List.length_cons, List.length_nil]; omega,
        fun _ => Nat.lt_succ_self _⟩
    · have := ih (line ++ [b])
      rw [List.length_append, List.length_singleton] at this
      exact ⟨by rw [List.length_cons]; omega, fun h => (this.2 h).trans (Nat.lt_succ_self _)⟩

theorem readEntry_rest_lt {delimiter : UInt8} {input : List UInt8}
    (h : ¬((readEntry delimiter [] input).1 = [] ∧ (readEntry delimiter [] input).2.1 = false)) :
    (readEntry delimiter [] input).2.2.length < input.length := by
  have hle : (readEntry delimiter [] input).2.2.length + (readEntry delimiter [] input).1.length ≤
      input.length := (readEntry_lt delimiter input []).1
  have hlt := (readEntry_lt delimiter input []).2
  rw [not_and_or, Bool.not_eq_false] at h
  rcases h with h | h
  · have := List.length_pos_iff.2 h
    omega
  · exact hlt h

def MapFileCommand.entryText (cmd : MapFileCommand) (line : List UInt8) : OsStr :=
  fromUtf8Lossy (if cmd.removeDelimiter ∧ line.getLast? = some cmd.delimiterByte then line.dropLast
    else line)

/-- The loop of `read_entries`. -/
def MapFileCommand.readEntriesLoop (cmd : MapFileCommand) (maxCount : ℕ) (entries : List OsStr)
    (readCount : ℤ) (input : List UInt8) : List OsStr :=
  if maxCount = 0 ∨ entries.length < maxCount then
    if _h : (readEntry cmd.delimiterByte [] input).1 = [] ∧
        (readEntry cmd.delimiterByte [] input).2.1 = false then entries
    else if readCount < cmd.skipCount then
      cmd.readEntriesLoop maxCount entries (readCount + 1)
        (readEntry cmd.delimiterByte [] input).2.2
    else
      cmd.readEntriesLoop maxCount
        (entries ++ [cmd.entryText (readEntry cmd.delimiterByte [] input).1]) readCount
        (readEntry cmd.delimiterByte [] input).2.2
  else entries
  termination_by input.length
  decreasing_by all_goals exact readEntry_rest_lt _h

/-- An error of `read_entries`. -/
inductive MapFileError
  | countOutOfRange
  deriving DecidableEq

def MapFileCommand.readEntries (cmd : MapFileCommand) (input : List UInt8) :
    Except MapFileError (List OsStr) :=
  if cmd.maxCount < 0 then .error .countOutOfRange
  else .ok (cmd.readEntriesLoop cmd.maxCount.toNat [] 0 input)

/-! ## All entries -/

/-- The entries of an input, behind the bytes of one that is begun. -/
def linesFrom (delimiter : UInt8) : List UInt8 → List UInt8 → List (List UInt8)
  | line, [] => if line = [] then [] else [line]
  | line, b :: rest =>
    if b = 0x03 then if line = [] then [] else line :: linesFrom delimiter [] rest
    else if b = 0x04 ∧ line = [] then []
    else if b = delimiter then (line ++ [b]) :: linesFrom delimiter [] rest
    else linesFrom delimiter (line ++ [b]) rest

theorem linesFrom_eq (delimiter : UInt8) (input line : List UInt8) :
    let (entry, sawDelimiter, rest) := readEntry delimiter line input
    linesFrom delimiter line input =
      if entry = [] ∧ sawDelimiter = false then [] else entry :: linesFrom delimiter [] rest := by
  induction input generalizing line with
  | nil =>
    show (if line = [] then [] else [line]) = if line = [] ∧ false = false then [] else _
    simp only [and_true]
    rfl
  | cons b rest ih =>
    rw [readEntry, linesFrom]
    split_ifs with h₁ h₂ h₃ h₄ <;> simp_all

/-- At most `n` of a list, or all of it for zero. -/
def atMost {α : Type*} (n : ℕ) (l : List α) : List α := if n = 0 then l else l.take n

theorem atMost_of_length_le {α : Type*} {n : ℕ} {l : List α} (h : n = 0 ∨ l.length ≤ n) :
    atMost n l = l := by
  unfold atMost
  split_ifs with hzero
  · rfl
  · exact List.take_of_length_le (h.resolve_left hzero)

theorem readEntriesLoop_eq (cmd : MapFileCommand) (maxCount : ℕ) (entries : List OsStr)
    (readCount : ℤ) (input : List UInt8) (hcount : maxCount = 0 ∨ entries.length ≤ maxCount) :
    cmd.readEntriesLoop maxCount entries readCount input =
      atMost maxCount (entries ++ ((linesFrom cmd.delimiterByte [] input).drop
        (cmd.skipCount - readCount).toNat).map cmd.entryText) := by
  induction hn : input.length using Nat.strong_induction_on generalizing entries readCount input with
  | _ n ih =>
    rw [MapFileCommand.readEntriesLoop]
    by_cases hmore : maxCount = 0 ∨ entries.length < maxCount
    · rw [if_pos hmore]
      have hlines := linesFrom_eq cmd.delimiterByte input []
      dsimp only at hlines
      by_cases hend : (readEntry cmd.delimiterByte [] input).1 = [] ∧
          (readEntry cmd.delimiterByte [] input).2.1 = false
      · rw [if_pos hend] at hlines
        rw [dif_pos hend, hlines, List.drop_nil, List.map_nil, List.append_nil,
          atMost_of_length_le hcount]
      rw [if_neg hend] at hlines
      rw [dif_neg hend, hlines]
      have hlt := readEntry_rest_lt hend
      by_cases hskip : readCount < cmd.skipCount
      · rw [if_pos hskip, ih _ (hn ▸ hlt) _ _ _ hcount rfl,
          show (cmd.skipCount - readCount).toNat = (cmd.skipCount - (readCount + 1)).toNat + 1 by
            omega, List.drop_succ_cons]
      · have hcount' : maxCount = 0 ∨
            (entries ++ [cmd.entryText (readEntry cmd.delimiterByte [] input).1]).length ≤
              maxCount := by
          rw [List.length_append, List.length_singleton]
          omega
        rw [if_neg hskip, ih _ (hn ▸ hlt) _ _ _ hcount' rfl,
          show (cmd.skipCount - readCount).toNat = 0 by omega, List.drop_zero, List.drop_zero,
          List.map_cons, List.append_assoc]
        rfl
    · rw [if_neg hmore]
      rw [not_or, not_lt] at hmore
      have hfull : entries.length = maxCount :=
        Nat.le_antisymm (hcount.resolve_left hmore.1) hmore.2
      rw [atMost, if_neg hmore.1, List.take_left' hfull]

def MapFileCommand.select (cmd : MapFileCommand) {α : Type*} (entries : List α) : List α :=
  atMost cmd.maxCount.toNat (entries.drop cmd.skipCount.toNat)

theorem readEntries_eq (cmd : MapFileCommand) (hcount : 0 ≤ cmd.maxCount) (input : List UInt8) :
    cmd.readEntries input =
      .ok (cmd.select ((linesFrom cmd.delimiterByte [] input).map cmd.entryText)) := by
  unfold MapFileCommand.readEntries MapFileCommand.select
  rw [if_neg (Int.not_lt.2 hcount), readEntriesLoop_eq _ _ _ _ _ (Or.inr (Nat.zero_le _)),
    List.nil_append, Int.sub_zero, List.map_drop]

/-! ## Entries of a text -/

/-- The entries of a text, behind the characters of one that is begun. -/
def entriesFrom (d : Char) : List Char → List Char → List (List Char)
  | line, [] => if line = [] then [] else [line]
  | line, c :: s =>
    if c = ctrlC then if line = [] then [] else line :: entriesFrom d [] s
    else if c = ctrlD ∧ line = [] then []
    else if c = d then (line ++ [c]) :: entriesFrom d [] s
    else entriesFrom d (line ++ [c]) s

variable {c : Char}

theorem encode_high (hc : 0x80 ≤ c.toNat) {b : UInt8}
    (hb : b ∈ String.utf8EncodeChar c) : 0x80 ≤ b.toNat := by
  have hcount := Shell.asciiBytes_encode c
  rw [if_neg (by omega), Shell.asciiBytes, List.countP_eq_zero] at hcount
  have := hcount b hb
  rw [decide_eq_true_eq] at this
  omega

theorem linesFrom_high {delimiter : UInt8} (hd : delimiter.toNat < 0x80) {bytes : List UInt8}
    (hbytes : ∀ b ∈ bytes, 0x80 ≤ b.toNat) (line rest : List UInt8) :
    linesFrom delimiter line (bytes ++ rest) = linesFrom delimiter (line ++ bytes) rest := by
  induction bytes generalizing line with
  | nil => rw [List.append_nil, List.nil_append]
  | cons b bytes ih =>
    rw [List.forall_mem_cons] at hbytes
    have hne : ∀ x : UInt8, x.toNat < 0x80 → b ≠ x := fun x hx h => by
      have := hbytes.1
      rw [h] at this
      omega
    rw [List.cons_append, linesFrom, if_neg (hne _ (by decide)),
      if_neg (fun h => hne 0x04 (by decide) h.1), if_neg (hne _ hd), ih hbytes.2, List.append_assoc]
    rfl

theorem encode_eq_nil {s : List Char} : encode s = [] ↔ s = [] := by
  cases s with
  | nil => exact iff_of_true rfl rfl
  | cons c s =>
    rw [encode_cons, List.append_eq_nil_iff]
    exact iff_of_false (fun h => String.utf8EncodeChar_ne_nil h.1) (List.cons_ne_nil _ _)

theorem ofNat_inj {d : Char} (hc : c.toNat < 0x80) (hd : d.toNat < 0x80) :
    UInt8.ofNat c.toNat = UInt8.ofNat d.toNat ↔ c = d := by
  refine ⟨fun h => ?_, fun h => h ▸ rfl⟩
  have := congrArg UInt8.toNat h
  rw [UInt8.toNat_ofNat', UInt8.toNat_ofNat', Nat.mod_eq_of_lt (by omega),
    Nat.mod_eq_of_lt (by omega)] at this
  exact Char.toNat_inj.1 this

theorem linesFrom_encode {d : Char} (hd : d.toNat < 0x80) (s line : List Char) :
    linesFrom (UInt8.ofNat d.toNat) (encode line) (encode s) =
      (entriesFrom d line s).map encode := by
  induction s generalizing line with
  | nil =>
    show (if encode line = [] then [] else [encode line]) = _
    simp only [encode_eq_nil, entriesFrom]
    split_ifs <;> rfl
  | cons c s ih =>
    have hline : encode (line ++ [c]) = encode line ++ String.utf8EncodeChar c := by
      rw [encode_append]
      exact congrArg _ (List.append_nil _)
    by_cases hc : c.toNat < 0x80
    · have hbyte : encode (line ++ [c]) = encode line ++ [UInt8.ofNat c.toNat] := by
        rw [hline, Shell.encode_low hc]
      have hC : UInt8.ofNat c.toNat = 0x03 ↔ c = ctrlC := ofNat_inj hc (d := ctrlC) (by decide)
      have hD : UInt8.ofNat c.toNat = 0x04 ↔ c = ctrlD := ofNat_inj hc (d := ctrlD) (by decide)
      have hrest := ih []
      rw [encode_low hc, linesFrom, entriesFrom]
      simp only [hC, hD, ofNat_inj hc hd, encode_eq_nil]
      split_ifs
      · rfl
      · exact congrArg _ hrest
      · rfl
      · rw [← hbyte]
        exact congrArg _ hrest
      · rw [← hbyte]
        exact ih _
    · have hne : ∀ x : Char, x.toNat < 0x80 → c ≠ x := fun x hx h => hc (h ▸ hx)
      rw [encode_cons, linesFrom_high (by rw [UInt8.toNat_ofNat']; omega)
        (fun b hb => encode_high (Nat.le_of_not_lt hc) hb), ← hline, entriesFrom,
        if_neg (hne _ (by decide)), if_neg (fun h => hne ctrlD (by decide) h.1), if_neg (hne _ hd)]
      exact ih _

/-! ## How the keys divide a text -/

/-- A text divided behind each `d`. -/
def splitAfter (d : Char) : List Char → List (List Char)
  | [] => []
  | c :: s =>
    if c = d then [c] :: splitAfter d s
    else
      match splitAfter d s with
      | [] => [[c]]
      | piece :: pieces => (c :: piece) :: pieces

theorem splitAfter_flatten (d : Char) (s : List Char) : (splitAfter d s).flatten = s := by
  induction s with
  | nil => rfl
  | cons c s ih =>
    rw [splitAfter]
    split_ifs
    · rw [List.flatten_cons, ih]
      rfl
    · cases h : splitAfter d s with
      | nil =>
        rw [h] at ih
        rw [← ih]
        rfl
      | cons piece pieces =>
        rw [h] at ih
        rw [← ih]
        rfl

variable {line : List Char}

theorem splitAfter_line {d : Char} (h : d ∉ line) :
    splitAfter d line = if line = [] then [] else [line] := by
  induction line with
  | nil => rfl
  | cons c line ih =>
    rw [List.mem_cons, not_or] at h
    rw [splitAfter, if_neg (Ne.symm h.1), ih h.2, if_neg (List.cons_ne_nil _ _)]
    split_ifs with hnil
    · rw [hnil]
    · rfl

theorem splitAfter_append {d : Char} (h : d ∉ line) (s : List Char) :
    splitAfter d (line ++ d :: s) = (line ++ [d]) :: splitAfter d s := by
  induction line with
  | nil => exact if_pos rfl
  | cons c line ih =>
    rw [List.mem_cons, not_or] at h
    rw [List.cons_append, splitAfter, if_neg (Ne.symm h.1), ih h.2]
    rfl

def NoKeyActs (d : Char) (s : List Char) : Prop :=
  ∀ piece ∈ splitAfter d s, ctrlC ∉ piece ∧ piece.head? ≠ some ctrlD

def AtStart (d : Char) (s : List Char) : Prop := s = [] ∨ s.getLast? = some d

instance (d : Char) (s : List Char) : Decidable (AtStart d s) :=
  inferInstanceAs (Decidable (_ ∨ _))

theorem NoKeyActs.ne_ctrlC {d : Char} {s : List Char} (h : NoKeyActs d s) (hc : c ∈ s) :
    c ≠ ctrlC := by
  rw [← splitAfter_flatten d s, List.mem_flatten] at hc
  obtain ⟨piece, hpiece, hc⟩ := hc
  exact fun he => (h piece hpiece).1 (he ▸ hc)

theorem NoKeyActs.head_ne_ctrlD {d : Char} {s : List Char} (h : NoKeyActs d (c :: s)) :
    c ≠ ctrlD := by
  unfold NoKeyActs at h
  rw [splitAfter] at h
  intro hc
  split at h
  · exact (h _ List.mem_cons_self).2 (congrArg some hc)
  · split at h <;> exact (h _ List.mem_cons_self).2 (congrArg some hc)

theorem atStart_line {d : Char} (h : d ∉ line) : AtStart d line ↔ line = [] :=
  or_iff_left fun hlast => h (List.mem_of_getLast? hlast)

theorem atStart_append (d : Char) (line s : List Char) :
    AtStart d (line ++ d :: s) ↔ AtStart d s := by
  unfold AtStart
  cases s with
  | nil => simp
  | cons c s => simp [List.getLast?_append]

/-- The entries of a text on which no key acts are those it is divided into, and the last of them
goes on unless it is ended. -/
theorem entriesFrom_append {d : Char} (s line : List Char) (hline : d ∉ line)
    (h : NoKeyActs d (line ++ s)) : ∃ front rest,
      splitAfter d (line ++ s) = front ++ (if rest = [] then [] else [rest]) ∧
      (rest = [] ↔ AtStart d (line ++ s)) ∧
      ∀ t, entriesFrom d line (s ++ t) = front ++ entriesFrom d rest t := by
  induction s generalizing line with
  | nil =>
    rw [List.append_nil]
    exact ⟨[], line, splitAfter_line hline, (atStart_line hline).symm, fun t => rfl⟩
  | cons c s ih =>
    have hC : c ≠ ctrlC := h.ne_ctrlC (List.mem_append_right _ List.mem_cons_self)
    have hD : ¬(c = ctrlD ∧ line = []) := by
      rintro ⟨hc, rfl⟩
      exact NoKeyActs.head_ne_ctrlD h hc
    have hstep : ∀ t, entriesFrom d line (c :: s ++ t) =
        if c = d then (line ++ [c]) :: entriesFrom d [] (s ++ t)
        else entriesFrom d (line ++ [c]) (s ++ t) := fun t => by
      rw [List.cons_append, entriesFrom, if_neg hC, if_neg hD]
    by_cases hc : c = d
    · subst hc
      have hpieces := splitAfter_append hline s
      obtain ⟨front, rest, hsplit, hstart, hfrom⟩ := ih [] List.not_mem_nil (fun piece hpiece =>
        h piece (hpieces ▸ List.mem_cons_of_mem _ hpiece))
      refine ⟨(line ++ [c]) :: front, rest, ?_, ?_, fun t => ?_⟩
      · rw [hpieces, show splitAfter c s = _ from hsplit]
        rfl
      · rw [atStart_append]
        exact hstart
      · rw [hstep, if_pos rfl, hfrom]
        rfl
    · have hassoc : line ++ c :: s = (line ++ [c]) ++ s := by simp
      rw [hassoc] at h ⊢
      obtain ⟨front, rest, hsplit, hstart, hfrom⟩ :=
        ih (line ++ [c]) (by simpa [hline] using Ne.symm hc) h
      refine ⟨front, rest, hsplit, hstart, fun t => ?_⟩
      rw [hstep, if_neg hc, hfrom]

def entriesOf (d : Char) (s : List Char) : List (List Char) := entriesFrom d [] s

section Keys

variable {d : Char} {s : List Char} (h : NoKeyActs d s)
include h

theorem entriesOf_split : entriesOf d s = splitAfter d s := by
  obtain ⟨front, rest, hsplit, -, hfrom⟩ := entriesFrom_append s [] List.not_mem_nil h
  have := hfrom []
  rw [List.append_nil] at this
  rw [entriesOf, this, show splitAfter d s = _ from hsplit]
  rfl

theorem entriesOf_ctrlC (t : List Char) : entriesOf d (s ++ ctrlC :: t) =
    splitAfter d s ++ if AtStart d s then [] else entriesOf d t := by
  obtain ⟨front, rest, hsplit, hstart, hfrom⟩ := entriesFrom_append s [] List.not_mem_nil h
  rw [List.nil_append] at hsplit hstart
  rw [entriesOf, hfrom, hsplit, entriesFrom, if_pos rfl]
  simp only [← hstart]
  split_ifs
  · rw [List.append_nil, List.append_nil]
  · rw [List.append_assoc]
    rfl

theorem entriesOf_ctrlD (hat : AtStart d s) (t : List Char) :
    entriesOf d (s ++ ctrlD :: t) = splitAfter d s := by
  obtain ⟨front, rest, hsplit, hstart, hfrom⟩ := entriesFrom_append s [] List.not_mem_nil h
  rw [List.nil_append] at hsplit hstart
  rw [entriesOf, hfrom, hsplit, entriesFrom, if_neg (by decide), if_pos ⟨rfl, hstart.2 hat⟩,
    if_pos (hstart.2 hat)]

end Keys

/-! ## The text of entries -/

def hostText (s : List Char) : OsStr := s.map OsChar.chr

theorem fromUtf8Lossy_encode (s : List Char) : fromUtf8Lossy (encode s) = hostText s := by
  have hutf8 : (hostText s).isUtf8 = true :=
    OsStr.isUtf8_iff.2 fun x hx => by
      obtain ⟨c, -, rfl⟩ := List.mem_map.1 hx
      exact ⟨c, rfl⟩
  have hbytes : (hostText s).bytes = encode s := by
    unfold hostText OsStr.bytes
    rw [List.flatMap_map]
    rfl
  rw [← hbytes, fromUtf8Lossy_bytes hutf8]

def MapFileCommand.strip (cmd : MapFileCommand) (d : Char) (piece : List Char) : List Char :=
  if cmd.removeDelimiter ∧ piece.getLast? = some d then piece.dropLast else piece

theorem encode_concat (s : List Char) (c : Char) :
    encode (s ++ [c]) = encode s ++ String.utf8EncodeChar c := by
  rw [encode_append]
  exact congrArg _ (List.append_nil _)

theorem getLast?_encode {d : Char} (hd : d.toNat < 0x80) (s : List Char) :
    (encode s).getLast? = some (UInt8.ofNat d.toNat) ↔ s.getLast? = some d := by
  induction s using List.reverseRecOn with
  | nil => exact iff_of_false nofun nofun
  | append_singleton s c =>
    rw [encode_concat, List.getLast?_concat, Option.some_inj,
      List.getLast?_append_of_ne_nil _ String.utf8EncodeChar_ne_nil]
    by_cases hlow : c.toNat < 0x80
    · rw [Shell.encode_low hlow, List.getLast?_singleton, Option.some_inj, ofNat_inj hlow hd]
    · refine iff_of_false (fun h => ?_) (fun h => hlow (h ▸ hd))
      have := encode_high (Nat.le_of_not_lt hlow) (List.mem_of_getLast? h)
      rw [UInt8.toNat_ofNat', Nat.mod_eq_of_lt (by omega)] at this
      omega

variable {cmd : MapFileCommand}

theorem entryText_encode {d : Char} (hd : d.toNat < 0x80)
    (hbyte : cmd.delimiterByte = UInt8.ofNat d.toNat) (piece : List Char) :
    cmd.entryText (encode piece) = hostText (cmd.strip d piece) := by
  unfold MapFileCommand.entryText MapFileCommand.strip
  rw [hbyte]
  simp only [getLast?_encode hd]
  split_ifs with h
  · obtain ⟨p, rfl⟩ := List.getLast?_eq_some_iff.1 h.2
    rw [encode_concat, Shell.encode_low hd, List.dropLast_concat, List.dropLast_concat,
      fromUtf8Lossy_encode]
  · exact fromUtf8Lossy_encode piece

def MapFileCommand.delimiterChar (cmd : MapFileCommand) : Char :=
  match cmd.delimiter with
  | some d => d.headD '\x00'
  | none => '\n'

theorem delimiterByte_eq (hd : cmd.delimiterChar.toNat < 0x80) :
    cmd.delimiterByte = UInt8.ofNat cmd.delimiterChar.toNat := by
  unfold MapFileCommand.delimiterByte
  unfold MapFileCommand.delimiterChar at hd ⊢
  cases h : cmd.delimiter with
  | none => rfl
  | some d =>
    rw [h] at hd
    cases d with
    | nil => rfl
    | cons c d =>
      have hc : c.toNat < 0x80 := hd
      show (encode (c :: d)).headD 0 = _
      rw [encode_low hc]
      rfl

theorem readEntries_encode (hcount : 0 ≤ cmd.maxCount)
    (hd : cmd.delimiterChar.toNat < 0x80) (s : List Char) :
    cmd.readEntries (encode s) = .ok (cmd.select
      ((entriesOf cmd.delimiterChar s).map (hostText ∘ cmd.strip cmd.delimiterChar))) := by
  have hlines : linesFrom (UInt8.ofNat cmd.delimiterChar.toNat) [] (encode s) =
      (entriesFrom cmd.delimiterChar [] s).map encode := linesFrom_encode hd s []
  rw [readEntries_eq cmd hcount, delimiterByte_eq hd, hlines, List.map_map]
  congr 3
  funext piece
  exact entryText_encode hd (delimiterByte_eq hd) piece

/-! ## What is kept of the input -/

/-- What `read` into one variable and `mapfile` keep of their input, with `IFS` empty. -/
structure KeepsInput : Prop where
  /-- Repeated calls yield the text, without the control characters that are ignored, and without
  `-r` with each backslash pair resolved. -/
  lines : ∀ raw name {s}, IsAscii s → KeyFree s →
    (plainRead raw name).readText (encode s) = some (kept raw s)
  linesCtrlC : ∀ raw name {s}, IsAscii s → KeyFree s → ∀ t,
    (plainRead raw name).readText (encode (s ++ ctrlC :: t)) = some (fullLines (kept raw s))
  linesCtrlD : ∀ raw name {s}, IsAscii s → KeyFree s → ∀ t,
    (plainRead raw name).readText (encode (s ++ ctrlD :: t)) =
      if lastLine (kept raw s) = [] ∧ pendingAfter raw s = false then some (kept raw s)
      else ((plainRead raw name).readText (encode t)).map (kept raw s ++ '\n' :: ·)
  /-- A call with a limit takes the next characters. -/
  limit : ∀ {cmd : ReadCommand} {name : Option (List Char)} {k}, cmd.arrayVariable = none →
    cmd.variableNames = name.toList → cmd.rawMode = true →
    cmd.returnAfterNCharsNoDelimiter.or cmd.returnAfterNChars = some k → 0 < k →
    ∀ {s}, IsAscii s → ∃ value status rest,
      TakesNext cmd.lineDelimiter k s value status rest ∧
      (cmd.execute [] none (encode s)).assigned.value = value ∧
      (cmd.execute [] none (encode s)).status = status ∧
      (cmd.execute [] none (encode s)).rest = encode rest
  /-- `mapfile` reads the entries its input is divided into. -/
  entries : ∀ {cmd : MapFileCommand}, 0 ≤ cmd.maxCount → cmd.delimiterChar.toNat < 0x80 →
    ∀ s, cmd.readEntries (encode s) = .ok (cmd.select
      ((entriesOf cmd.delimiterChar s).map (hostText ∘ cmd.strip cmd.delimiterChar)))
  entriesSplit : ∀ {d s}, NoKeyActs d s → entriesOf d s = splitAfter d s
  entriesCtrlC : ∀ {d s}, NoKeyActs d s → ∀ t, entriesOf d (s ++ ctrlC :: t) =
    splitAfter d s ++ if AtStart d s then [] else entriesOf d t
  entriesCtrlD : ∀ {d s}, NoKeyActs d s → AtStart d s → ∀ t,
    entriesOf d (s ++ ctrlD :: t) = splitAfter d s

/-- **The input of `read` and `mapfile`.** But for the control characters, which are keys or are
ignored, and a backslash at the end, nothing is lost. -/
theorem input_kept : KeepsInput where
  lines raw name _ hs hkey := readText_keyFree raw name hs hkey
  linesCtrlC raw name _ hs hkey t := readText_ctrlC raw name hs hkey t
  linesCtrlD raw name _ hs hkey t := readText_ctrlD raw name hs hkey t
  limit harray hname hraw hlimit hk _ hs := execute_takes harray hname hraw hlimit hk hs
  entries hcount hd s := readEntries_encode hcount hd s
  entriesSplit h := entriesOf_split h
  entriesCtrlC h t := entriesOf_ctrlC h t
  entriesCtrlD h hat t := entriesOf_ctrlD h hat t

/-- A control character is lost. -/
theorem not_lossless : ¬ ∀ s : List Char, '\x00' ∉ s →
    (plainRead true none).readText (encode s) = some s := fun h =>
  absurd (h ['a', '\x01', 'b'] (by decide)) (by decide)

end Seahaven.ReadLine
