import Mathlib.Data.List.DropRight
import Mathlib.Logic.Function.Basic
import Seahaven.Lib.Lines
import Seahaven.Shell.Decimal
import Seahaven.Shell.Reprint

/-!
# The history file

`flush` writes the command lines as they are, each with a newline, and `import` takes each line for
a command line, but for the comments.

1. `History` and its operations; `History.Sound` holds after any of them.
2. `import_listed`: the items that are read are those of the lines (`readItems`).
3. `roundTrips_iff`: what is written is read back if and only if every command line is `Plain`.
-/

namespace Seahaven.Shell

abbrev ItemId := Int

/-- What is known of `chrono::DateTime<Utc>`. -/
structure Clock (T : Type) where
  /-- Seconds since the epoch. -/
  timestamp : T → Int
  fromTimestamp : Int → Option T

/-- The seconds of a time are an `i64`, and those of another time. -/
structure Clock.Lawful {T : Type} (clock : Clock T) : Prop where
  isI64 : ∀ t, IsI64 (clock.timestamp t)
  fromTimestamp_timestamp : ∀ t, (clock.fromTimestamp (clock.timestamp t)).map clock.timestamp =
    some (clock.timestamp t)

/-- `history::Item`. -/
structure HistoryItem (T : Type) where
  id : ItemId
  commandLine : List Char
  timestamp : Option T
  dirty : Bool

structure History (T : Type) where
  items : List ItemId
  idMap : ItemId → Option (HistoryItem T)
  nextId : ItemId

variable {T : Type}

def HistoryItem.content (item : HistoryItem T) : List Char × Option T :=
  (item.commandLine, item.timestamp)

namespace History

/-! ## Operations -/

def empty : History T := ⟨[], fun _ => none, 0⟩

def add (h : History T) (item : HistoryItem T) : History T where
  items := h.items ++ [h.nextId]
  idMap := Function.update h.idMap h.nextId (some { item with id := h.nextId })
  nextId := h.nextId + 1

def updateById (h : History T) (id : ItemId) (item : HistoryItem T) : History T :=
  if (h.idMap id).isSome then { h with idMap := Function.update h.idMap id (some item) } else h

def removeNthItem (h : History T) (n : Nat) : History T :=
  match h.items[n]? with
  | some id => { h with
      items := h.items.eraseIdx n
      idMap := Function.update h.idMap id none }
  | none => h

def deleteItemById (h : History T) (id : ItemId) : History T where
  items := h.items.filter (· ≠ id)
  idMap := Function.update h.idMap id none
  nextId := h.nextId

def clear (h : History T) : History T := { h with items := [], idMap := fun _ => none }

def listed (h : History T) : List (HistoryItem T) := h.items.filterMap h.idMap

/-! ## Writing -/

def utf8 (s : List Char) : List UInt8 := s.flatMap String.utf8EncodeChar

def writeln (s : List Char) : List UInt8 := utf8 s ++ [10]

/-- What `flush` writes of an item. -/
def itemBytes (clock : Clock T) (writeTimestamps : Bool) (item : HistoryItem T) : List UInt8 :=
  (match writeTimestamps, item.timestamp with
    | true, some t => writeln ('#' :: i64ToString (clock.timestamp t))
    | _, _ => []) ++ writeln item.commandLine

/-- One round of `flush`. -/
def flushItem (clock : Clock T) (unsavedItemsOnly writeTimestamps : Bool)
    (written : List UInt8 × History T) (id : ItemId) : List UInt8 × History T :=
  match written.2.idMap id with
  | none => written
  | some item =>
    if unsavedItemsOnly && !item.dirty then written
    else (written.1 ++ itemBytes clock writeTimestamps item,
      if unsavedItemsOnly then
        { written.2 with
          idMap := Function.update written.2.idMap id (some { item with dirty := false }) }
      else written.2)

def flush (clock : Clock T) (h : History T) (unsavedItemsOnly writeTimestamps : Bool) :
    List UInt8 × History T :=
  h.items.foldl (flushItem clock unsavedItemsOnly writeTimestamps) ([], h)

/-! ## Reading -/

/-- `char::is_whitespace`. -/
def isWhitespace (c : Char) : Bool :=
  let n := c.toNat
  9 ≤ n && n ≤ 13 || n == 0x20 || n == 0x85 || n == 0xA0 || n == 0x1680 ||
    0x2000 ≤ n && n ≤ 0x200A || n == 0x2028 || n == 0x2029 || n == 0x202F || n == 0x205F ||
    n == 0x3000

def trim (s : List Char) : List Char := (s.dropWhile isWhitespace).rdropWhile isWhitespace

def stripCr (s : List Char) : List Char := if s.getLast? = some '\r' then s.dropLast else s

/-- A line of `BufRead::lines`. There is none if the bytes are not characters. -/
def decodeLine (line : List UInt8 × Bool) : Option (List Char) :=
  (fromUtf8 line.1).map fun s =>
    let s := s.filterMap fun
      | .chr c => some c
      | .raw _ => none
    if line.2 then stripCr s else s

/-- The timestamp of a comment, without its `#`. -/
def commentTimestamp (clock : Clock T) (comment : List Char) : Option T :=
  (parseI64 (trim comment)).bind clock.fromTimestamp

/-- One round of `import`, with the timestamp for the next item. -/
def importLine (clock : Clock T) (read : History T × Option T) :
    Option (List Char) → History T × Option T
  | none => read
  | some ('#' :: comment) => (read.1, commentTimestamp clock comment)
  | some line => (read.1.add ⟨read.1.nextId, line, read.2, false⟩, none)

def importFrom (clock : Clock T) (bytes : List UInt8) : History T :=
  (((Lines.read 10 bytes).map decodeLine).foldl (importLine clock) (empty, none)).1

end History

/-! ## Statement -/

/-- An operation on a history. -/
inductive HistoryOp (T : Type)
  | add (item : HistoryItem T)
  | updateById (id : ItemId) (item : HistoryItem T)
  | removeNthItem (n : Nat)
  | deleteItemById (id : ItemId)
  | clear

namespace History

def apply (h : History T) : HistoryOp T → History T
  | .add item => h.add item
  | .updateById id item => h.updateById id item
  | .removeNthItem n => h.removeNthItem n
  | .deleteItemById id => h.deleteItemById id
  | .clear => h.clear

def run (ops : List (HistoryOp T)) : History T := ops.foldl apply empty

/-- What is written of all items is read back. -/
structure RoundTrips (clock : Clock T) (h : History T) (writeTimestamps : Bool) : Prop where
  count : (importFrom clock (h.flush clock false writeTimestamps).1).items.length = h.items.length
  commandLines : (importFrom clock (h.flush clock false writeTimestamps).1).listed.map
    HistoryItem.commandLine = h.listed.map HistoryItem.commandLine
  timestamps : writeTimestamps = true →
    (importFrom clock (h.flush clock false writeTimestamps).1).listed.map
      (fun item => item.timestamp.map clock.timestamp) =
        h.listed.map fun item => item.timestamp.map clock.timestamp

/-- One line that is no comment, and does not end in a carriage return. -/
structure Plain (commandLine : List Char) : Prop where
  oneLine : '\n' ∉ commandLine
  noComment : commandLine.head? ≠ some '#'
  noCr : commandLine.getLast? ≠ some '\r'

end History

/-! ## Soundness -/

namespace History

/-- The numbers of the items are given out, and each has an item. -/
structure Sound (h : History T) : Prop where
  nodup : h.items.Nodup
  given : ∀ id ∈ h.items, id < h.nextId
  isSome : ∀ id ∈ h.items, (h.idMap id).isSome = true

variable {h : History T}

theorem sound_empty : (empty : History T).Sound :=
  ⟨List.nodup_nil, nofun, nofun⟩

theorem Sound.add (hs : h.Sound) (item : HistoryItem T) : (h.add item).Sound := by
  have hfresh : h.nextId ∉ h.items := fun hmem => lt_irrefl _ (hs.given _ hmem)
  constructor
  · exact List.nodup_append.2 ⟨hs.nodup, List.nodup_singleton _, fun a ha b hb heq =>
      hfresh (List.mem_singleton.1 hb ▸ heq ▸ ha)⟩
  · intro id hid
    show id < h.nextId + 1
    rcases List.mem_append.1 hid with hmem | hmem
    · exact lt_trans (hs.given id hmem) (Int.lt_succ _)
    · rw [List.mem_singleton.1 hmem]
      exact Int.lt_succ _
  · intro id hid
    show (Function.update h.idMap h.nextId _ id).isSome = true
    by_cases hnext : id = h.nextId
    · rw [hnext, Function.update_self]
      rfl
    · rw [Function.update_of_ne hnext]
      rcases List.mem_append.1 hid with hmem | hmem
      · exact hs.isSome id hmem
      · exact absurd (List.mem_singleton.1 hmem) hnext

theorem Sound.remove (hs : h.Sound) {items : List ItemId} {id : ItemId}
    (hsub : items.Sublist h.items) (hid : id ∉ items) :
    ({ h with items, idMap := Function.update h.idMap id none } : History T).Sound := by
  constructor
  · exact hs.nodup.sublist hsub
  · exact fun id' hid' => hs.given id' (hsub.subset hid')
  · intro id' hid'
    show (Function.update h.idMap id none id').isSome = true
    rw [Function.update_of_ne (ne_of_mem_of_not_mem hid' hid)]
    exact hs.isSome id' (hsub.subset hid')

/-- **Step.** Every operation keeps a history sound. -/
theorem Sound.apply (hs : h.Sound) (op : HistoryOp T) : (h.apply op).Sound := by
  cases op with
  | add item => exact hs.add item
  | updateById id item =>
    show (h.updateById id item).Sound
    unfold updateById
    split_ifs
    · refine ⟨hs.nodup, hs.given, fun id' hid' => ?_⟩
      show (Function.update h.idMap id (some item) id').isSome = true
      by_cases heq : id' = id
      · rw [heq, Function.update_self]
        rfl
      · rw [Function.update_of_ne heq]
        exact hs.isSome id' hid'
    · exact hs
  | removeNthItem n =>
    show (h.removeNthItem n).Sound
    unfold removeNthItem
    split
    · rename_i id hn
      refine hs.remove (List.eraseIdx_sublist _ _) fun hmem => ?_
      obtain ⟨m, hne, hm⟩ := List.mem_eraseIdx_iff_getElem?.1 hmem
      obtain ⟨hmlen, hmval⟩ := List.getElem?_eq_some_iff.1 hm
      obtain ⟨hnlen, hnval⟩ := List.getElem?_eq_some_iff.1 hn
      exact hne (hs.nodup.getElem_inj_iff.1 (hmval.trans hnval.symm))
    · exact hs
  | deleteItemById id =>
    exact hs.remove List.filter_sublist fun hmem => by simp at hmem
  | clear => exact ⟨List.nodup_nil, nofun, nofun⟩

theorem sound_run (ops : List (HistoryOp T)) : (run ops).Sound := by
  have hfold : ∀ (ops : List (HistoryOp T)) (h : History T), h.Sound →
      (ops.foldl History.apply h).Sound := by
    intro ops
    induction ops with
    | nil => exact fun h hs => hs
    | cons op ops ih => exact fun h hs => ih _ (hs.apply op)
  exact hfold ops empty sound_empty

theorem Sound.length_listed (hs : h.Sound) : h.listed.length = h.items.length := by
  have hfilter : ∀ ids : List ItemId, (∀ id ∈ ids, (h.idMap id).isSome = true) →
      (ids.filterMap h.idMap).length = ids.length := by
    intro ids hids
    induction ids with
    | nil => rfl
    | cons id ids ih =>
      obtain ⟨hid, hrest⟩ := List.forall_mem_cons.1 hids
      obtain ⟨item, hitem⟩ := Option.isSome_iff_exists.1 hid
      rw [List.filterMap_cons_some hitem, List.length_cons, List.length_cons, ih hrest]
  exact hfilter h.items hs.isSome

theorem Sound.listed_add (hs : h.Sound) (item : HistoryItem T) :
    (h.add item).listed = h.listed ++ [{ item with id := h.nextId }] := by
  have hold : ∀ id ∈ h.items,
      Function.update h.idMap h.nextId (some { item with id := h.nextId }) id = h.idMap id :=
    fun id hid => Function.update_of_ne (ne_of_lt (hs.given id hid)) _ _
  unfold listed History.add
  rw [List.filterMap_append, List.filterMap_congr hold]
  simp

/-! ## The items that are read -/

/-- What `import` makes of lines, with the timestamp for the next item. -/
def readItems (clock : Clock T) : Option T → List (Option (List Char)) →
    List (List Char × Option T)
  | _, [] => []
  | next, none :: lines => readItems clock next lines
  | _, some ('#' :: comment) :: lines => readItems clock (commentTimestamp clock comment) lines
  | next, some line :: lines => (line, next) :: readItems clock none lines

variable {clock : Clock T} {line : List Char}

theorem readItems_line (hline : line.head? ≠ some '#')
    (next : Option T) (lines : List (Option (List Char))) :
    readItems clock next (some line :: lines) = (line, next) :: readItems clock none lines := by
  rw [readItems]
  rintro comment rfl
  exact hline rfl

theorem importLine_line (hline : line.head? ≠ some '#')
    (read : History T × Option T) : importLine clock read (some line) =
      (read.1.add ⟨read.1.nextId, line, read.2, false⟩, none) := by
  rw [importLine]
  rintro comment rfl
  exact hline rfl

/-- **Reading.** The items that are read are those of the lines. -/
theorem import_lines (clock : Clock T) (lines : List (Option (List Char)))
    (read : History T × Option T) (hs : read.1.Sound) :
    (lines.foldl (importLine clock) read).1.Sound ∧
      (lines.foldl (importLine clock) read).1.listed.map HistoryItem.content =
        read.1.listed.map HistoryItem.content ++ readItems clock read.2 lines := by
  induction lines generalizing read with
  | nil => exact ⟨hs, by simp [readItems]⟩
  | cons line lines ih =>
    rw [List.foldl_cons]
    cases line with
    | none => exact ih read hs
    | some line =>
      by_cases hline : line.head? = some '#'
      · obtain ⟨comment, rfl⟩ := List.head?_eq_some_iff.1 hline
        exact ih (read.1, commentTimestamp clock comment) hs
      · rw [importLine_line hline, readItems_line hline]
        obtain ⟨hsound, hlisted⟩ := ih (read.1.add ⟨read.1.nextId, line, read.2, false⟩, none)
          (hs.add ⟨read.1.nextId, line, read.2, false⟩)
        refine ⟨hsound, hlisted.trans ?_⟩
        show (read.1.add _).listed.map _ ++ _ = _
        rw [hs.listed_add]
        simp [HistoryItem.content]

theorem import_listed (clock : Clock T) (bytes : List UInt8) :
    (importFrom clock bytes).Sound ∧
      (importFrom clock bytes).listed.map HistoryItem.content =
        readItems clock none ((Lines.read 10 bytes).map decodeLine) :=
  import_lines clock _ (empty, none) sound_empty

/-! ## The lines that are written -/

theorem flush_all (clock : Clock T) (h : History T) (writeTimestamps : Bool) :
    h.flush clock false writeTimestamps =
      (h.listed.flatMap (itemBytes clock writeTimestamps), h) := by
  have hfold : ∀ (ids : List ItemId) (written : List UInt8),
      ids.foldl (flushItem clock false writeTimestamps) (written, h) =
        (written ++ (ids.filterMap h.idMap).flatMap (itemBytes clock writeTimestamps), h) := by
    intro ids
    induction ids with
    | nil => simp
    | cons id ids ih =>
      intro written
      rw [List.foldl_cons]
      cases hid : h.idMap id with
      | none =>
        rw [List.filterMap_cons_none hid, ← ih]
        simp [flushItem, hid]
      | some item =>
        have hitem : flushItem clock false writeTimestamps (written, h) id =
            (written ++ itemBytes clock writeTimestamps item, h) := by simp [flushItem, hid]
        rw [List.filterMap_cons_some hid, hitem, ih, List.flatMap_cons, List.append_assoc]
  exact hfold h.items []

def stampLines (clock : Clock T) (writeTimestamps : Bool) (item : HistoryItem T) :
    List (List Char) :=
  match writeTimestamps, item.timestamp with
  | true, some t => ['#' :: i64ToString (clock.timestamp t)]
  | _, _ => []

def itemLines (clock : Clock T) (writeTimestamps : Bool) (item : HistoryItem T) :
    List (List Char) :=
  stampLines clock writeTimestamps item ++ item.commandLine.splitOn '\n'

theorem utf8_append (s t : List Char) : utf8 (s ++ t) = utf8 s ++ utf8 t := List.flatMap_append

theorem utf8_written (lines : List (List Char)) :
    utf8 (Lines.written '\n' lines) = Lines.written 10 (lines.map utf8) := by
  induction lines with
  | nil => rfl
  | cons line lines ih =>
    have hchars : Lines.written '\n' (line :: lines) =
        line ++ ['\n'] ++ Lines.written '\n' lines := rfl
    have hbytes : Lines.written 10 ((line :: lines).map utf8) =
        utf8 line ++ [10] ++ Lines.written 10 (lines.map utf8) := rfl
    rw [hchars, hbytes, utf8_append, utf8_append, ih]
    rfl

theorem not_mem_utf8 (h : '\n' ∉ line) : (10 : UInt8) ∉ utf8 line := by
  intro hmem
  obtain ⟨c, hc, hbyte⟩ := List.mem_flatMap.1 hmem
  have hcount := asciiBytes_encode c
  by_cases hlow : c.toNat < 0x80
  · rw [encode_low hlow, List.mem_singleton] at hbyte
    have hval := congrArg UInt8.toNat hbyte
    rw [UInt8.toNat_ofNat', Nat.mod_eq_of_lt (hlow.trans (by decide))] at hval
    have hnewline : c = '\n' := Char.toNat_inj.1 hval.symm
    exact h (hnewline ▸ hc)
  · rw [if_neg hlow, asciiBytes, List.countP_eq_zero] at hcount
    exact hcount 10 hbyte (by decide)

theorem decodeLine_utf8 (line : List Char) :
    decodeLine (utf8 line, true) = some (stripCr line) := by
  have hbytes : utf8 line = OsStr.bytes (line.map OsChar.chr) := by
    unfold utf8 OsStr.bytes
    rw [List.flatMap_map]
  have hdecode : fromUtf8 (utf8 line) = some (line.map OsChar.chr) := by
    rw [hbytes]
    refine fromUtf8_bytes (OsStr.isUtf8_iff.2 fun x hx => ?_)
    obtain ⟨c, -, hc⟩ := List.mem_map.1 hx
    exact ⟨c, hc.symm⟩
  unfold decodeLine
  rw [hdecode, Option.map_some]
  simp [List.filterMap_map]

/-- **Lines.** The lines that are read are those that were written, without their carriage
returns. -/
theorem read_lines {lines : List (List Char)} (h : ∀ line ∈ lines, '\n' ∉ line) :
    (Lines.read 10 (utf8 (Lines.written '\n' lines))).map decodeLine =
      lines.map fun line => some (stripCr line) := by
  have hbytes : ∀ line ∈ lines.map utf8, (10 : UInt8) ∉ line := by
    intro line hline
    obtain ⟨text, htext, rfl⟩ := List.mem_map.1 hline
    exact not_mem_utf8 (h text htext)
  rw [utf8_written, Lines.read_written hbytes, List.map_map, List.map_map]
  exact List.map_congr_left fun line _ => decodeLine_utf8 line

/-! ## Timestamps -/

theorem i64ToString_chars {n : Int} {c : Char} (h : c ∈ i64ToString n) :
    c = '-' ∨ c.isDigit = true := by
  have hdigits : ∀ {n : Nat} {c : Char}, c ∈ Nat.toDigits 10 n → c.isDigit = true :=
    fun hc => Nat.isDigit_of_mem_toDigits (by decide) (by decide) hc
  rcases Int.eq_nat_or_neg n with ⟨m, rfl | rfl⟩
  · rw [i64ToString_ofNat] at h
    exact .inr (hdigits h)
  · by_cases hm : m = 0
    · subst hm
      rw [Int.natCast_zero, Int.neg_zero, show (0 : Int) = ((0 : Nat) : Int) from rfl,
        i64ToString_ofNat] at h
      exact .inr (hdigits h)
    · rw [i64ToString_neg hm] at h
      rcases List.mem_cons.1 h with rfl | hmem
      · exact .inl rfl
      · exact .inr (hdigits hmem)

theorem not_isWhitespace_number {n : Int} {c : Char} (h : c ∈ i64ToString n) :
    isWhitespace c = false := by
  rcases i64ToString_chars h with rfl | hdigit
  · decide
  · obtain ⟨hlow, hhigh⟩ : 48 ≤ c.toNat ∧ c.toNat ≤ 57 := Char.isDigit_iff_toNat.1 hdigit
    rw [Bool.eq_false_iff]
    intro hwhite
    simp only [isWhitespace, Bool.or_eq_true, Bool.and_eq_true, decide_eq_true_eq,
      beq_iff_eq] at hwhite
    omega

theorem trim_number (n : Int) : trim (i64ToString n) = i64ToString n := by
  have hchars : ∀ c ∈ i64ToString n, isWhitespace c = false :=
    fun c hc => not_isWhitespace_number hc
  generalize i64ToString n = s at hchars
  have hleft : s.dropWhile isWhitespace = s := by
    cases s with
    | nil => rfl
    | cons c s => rw [List.dropWhile_cons_of_neg (by simp [hchars c List.mem_cons_self])]
  unfold trim
  rw [hleft, List.rdropWhile_eq_self_iff]
  intro hne hwhite
  rw [hchars _ (List.getLast_mem hne)] at hwhite
  cases hwhite

theorem newline_not_mem_number (n : Int) : '\n' ∉ i64ToString n := by
  intro h
  have := not_isWhitespace_number h
  cases this

/-! ## Writing and reading back -/

theorem writeln_lines (s : List Char) :
    writeln s = utf8 (Lines.written '\n' (s.splitOn '\n')) := by
  rw [Lines.written_split, utf8_append]
  rfl

theorem itemBytes_lines (clock : Clock T) (writeTimestamps : Bool) (item : HistoryItem T) :
    itemBytes clock writeTimestamps item =
      utf8 (Lines.written '\n' (itemLines clock writeTimestamps item)) := by
  unfold itemBytes itemLines
  rw [writeln_lines item.commandLine, Lines.written_append, utf8_append]
  unfold stampLines
  split
  · rename_i t _
    have hstamp : '\n' ∉ '#' :: i64ToString (clock.timestamp t) := fun hmem => by
      rcases List.mem_cons.1 hmem with heq | hmem
      · cases heq
      · exact newline_not_mem_number _ hmem
    rw [writeln_lines, Lines.split_eq_singleton hstamp]
  · rfl

theorem flatMap_itemBytes (clock : Clock T) (writeTimestamps : Bool)
    (items : List (HistoryItem T)) :
    items.flatMap (itemBytes clock writeTimestamps) =
      utf8 (Lines.written '\n' (items.flatMap (itemLines clock writeTimestamps))) := by
  induction items with
  | nil => rfl
  | cons item items ih =>
    rw [List.flatMap_cons, List.flatMap_cons, Lines.written_append, utf8_append, ih,
      itemBytes_lines]

theorem newline_not_mem_itemLines {writeTimestamps : Bool}
    {item : HistoryItem T}
    (h : line ∈ itemLines clock writeTimestamps item) : '\n' ∉ line := by
  unfold itemLines stampLines at h
  rcases List.mem_append.1 h with hstamp | hline
  · split at hstamp
    · rw [List.mem_singleton.1 hstamp]
      intro hmem
      rcases List.mem_cons.1 hmem with heq | hmem
      · cases heq
      · exact newline_not_mem_number _ hmem
    · cases hstamp
  · exact Lines.not_mem_split hline

theorem stripCr_eq_self {s : List Char} : stripCr s = s ↔ s.getLast? ≠ some '\r' := by
  unfold stripCr
  split_ifs with hlast
  · refine iff_of_false (fun heq => ?_) fun hne => hne hlast
    have hlength := congrArg List.length heq
    rw [List.length_dropLast] at hlength
    cases s with
    | nil => cases hlast
    | cons c s => simp at hlength
  · exact iff_of_true rfl hlast

theorem stripCr_isPrefix (s : List Char) : stripCr s <+: s := by
  unfold stripCr
  split_ifs
  · exact List.dropLast_prefix s
  · exact List.prefix_refl s

theorem head?_stripCr {s : List Char} (h : s.head? ≠ some '#') :
    (stripCr s).head? ≠ some '#' := by
  intro hhead
  obtain ⟨rest, hrest⟩ := List.head?_eq_some_iff.1 hhead
  obtain ⟨more, hmore⟩ := stripCr_isPrefix s
  rw [← hmore, hrest] at h
  exact h rfl

def readTimestamp (clock : Clock T) (writeTimestamps : Bool) (item : HistoryItem T) : Option T :=
  match writeTimestamps, item.timestamp with
  | true, some t => clock.fromTimestamp (clock.timestamp t)
  | _, _ => none

theorem readItems_stamp (hclock : clock.Lawful) (writeTimestamps : Bool)
    (item : HistoryItem T) (lines : List (List Char)) :
    readItems clock none ((stampLines clock writeTimestamps item ++ lines).map
        fun line => some (stripCr line)) =
      readItems clock (readTimestamp clock writeTimestamps item)
        (lines.map fun line => some (stripCr line)) := by
  unfold stampLines readTimestamp
  split
  · rename_i t _
    have hcr : stripCr ('#' :: i64ToString (clock.timestamp t)) =
        '#' :: i64ToString (clock.timestamp t) := by
      refine stripCr_eq_self.2 fun hlast => ?_
      rcases List.mem_cons.1 (List.mem_of_getLast? hlast) with heq | hmem
      · cases heq
      · have hwhite := not_isWhitespace_number hmem
        cases hwhite
    have hcomment : commentTimestamp clock (i64ToString (clock.timestamp t)) =
        clock.fromTimestamp (clock.timestamp t) := by
      rw [commentTimestamp, trim_number, parseI64_i64ToString (hclock.isI64 t), Option.bind_some]
    rw [List.singleton_append, List.map_cons, hcr, readItems, hcomment]
  · rfl

/-- **Items.** Items of one line, which is no comment, are read without their carriage returns. -/
theorem readItems_items (hclock : clock.Lawful) (writeTimestamps : Bool)
    {items : List (HistoryItem T)}
    (h : ∀ item ∈ items, '\n' ∉ item.commandLine ∧ item.commandLine.head? ≠ some '#') :
    readItems clock none ((items.flatMap (itemLines clock writeTimestamps)).map
        fun line => some (stripCr line)) =
      items.map fun item =>
        (stripCr item.commandLine, readTimestamp clock writeTimestamps item) := by
  induction items with
  | nil => rfl
  | cons item items ih =>
    obtain ⟨⟨hline, hcomment⟩, hrest⟩ := List.forall_mem_cons.1 h
    rw [List.flatMap_cons, itemLines, List.append_assoc, readItems_stamp hclock,
      Lines.split_eq_singleton hline, List.singleton_append, List.map_cons,
      readItems_line (head?_stripCr hcomment), ih hrest, List.map_cons]

theorem mem_readItems {next : Option T} {lines : List (Option (List Char))}
    {t : Option T} (h : (line, t) ∈ readItems clock next lines) :
    some line ∈ lines ∧ line.head? ≠ some '#' := by
  induction lines generalizing next with
  | nil => cases h
  | cons first lines ih =>
    cases first with
    | none =>
      obtain ⟨hmem, hhead⟩ := ih h
      exact ⟨List.mem_cons_of_mem _ hmem, hhead⟩
    | some text =>
      by_cases htext : text.head? = some '#'
      · obtain ⟨comment, rfl⟩ := List.head?_eq_some_iff.1 htext
        obtain ⟨hmem, hhead⟩ := ih h
        exact ⟨List.mem_cons_of_mem _ hmem, hhead⟩
      · rw [readItems_line htext] at h
        rcases List.mem_cons.1 h with heq | hmem
        · cases heq
          exact ⟨List.mem_cons_self, htext⟩
        · obtain ⟨hmem, hhead⟩ := ih hmem
          exact ⟨List.mem_cons_of_mem _ hmem, hhead⟩

theorem import_flush (clock : Clock T) (h : History T) (writeTimestamps : Bool) :
    (importFrom clock (h.flush clock false writeTimestamps).1).Sound ∧
      (importFrom clock (h.flush clock false writeTimestamps).1).listed.map HistoryItem.content =
        readItems clock none ((h.listed.flatMap (itemLines clock writeTimestamps)).map
          fun line => some (stripCr line)) := by
  have hnewline : ∀ line ∈ h.listed.flatMap (itemLines clock writeTimestamps), '\n' ∉ line := by
    intro line hline
    obtain ⟨item, -, hitem⟩ := List.mem_flatMap.1 hline
    exact newline_not_mem_itemLines hitem
  rw [flush_all, flatMap_itemBytes, ← read_lines hnewline]
  exact import_listed clock _

theorem map_commandLine (items : List (HistoryItem T)) :
    items.map HistoryItem.commandLine = (items.map HistoryItem.content).map Prod.fst := by
  rw [List.map_map]
  rfl

theorem map_timestamp (clock : Clock T) (items : List (HistoryItem T)) :
    items.map (fun item => item.timestamp.map clock.timestamp) =
      (items.map HistoryItem.content).map fun content => content.2.map clock.timestamp := by
  rw [List.map_map]
  rfl

/-- **Round trip.** What is written of a history is read back if and only if every command line is
one line, is no comment, and does not end in a carriage return. -/
theorem roundTrips_iff (clock : Clock T) (hclock : clock.Lawful) (ops : List (HistoryOp T))
    (writeTimestamps : Bool) :
    (run ops).RoundTrips clock writeTimestamps ↔
      ∀ item ∈ (run ops).listed, Plain item.commandLine := by
  have hsound := sound_run ops
  generalize run ops = h at hsound
  obtain ⟨himport, hlisted⟩ := import_flush clock h writeTimestamps
  have hread := map_commandLine
    (importFrom clock (h.flush clock false writeTimestamps).1).listed
  rw [hlisted] at hread
  constructor
  · intro htrip
    have hlines := hread.symm.trans htrip.commandLines
    have hline : ∀ item ∈ h.listed,
        '\n' ∉ item.commandLine ∧ item.commandLine.head? ≠ some '#' := by
      intro item hitem
      have hmem : item.commandLine ∈ h.listed.map HistoryItem.commandLine :=
        List.mem_map_of_mem hitem
      rw [← hlines] at hmem
      obtain ⟨⟨line, t⟩, hpair, hcommand⟩ := List.mem_map.1 hmem
      obtain ⟨hsome, hhead⟩ := mem_readItems hpair
      have hcommand' : line = item.commandLine := hcommand
      rw [hcommand'] at hsome hhead
      obtain ⟨text, htext, hstrip⟩ := List.mem_map.1 hsome
      refine ⟨fun hnewline => ?_, hhead⟩
      obtain ⟨owner, -, howner⟩ := List.mem_flatMap.1 htext
      rw [← Option.some.inj hstrip] at hnewline
      exact newline_not_mem_itemLines howner ((stripCr_isPrefix text).subset hnewline)
    rw [readItems_items hclock writeTimestamps hline, List.map_map] at hlines
    intro item hitem
    obtain ⟨hnewline, hcomment⟩ := hline item hitem
    have hstrip : stripCr item.commandLine = item.commandLine :=
      List.map_inj_left.1 hlines item hitem
    exact ⟨hnewline, hcomment, stripCr_eq_self.1 hstrip⟩
  · intro hplain
    have hitems := readItems_items hclock writeTimestamps
      fun item hitem => ⟨(hplain item hitem).oneLine, (hplain item hitem).noComment⟩
    rw [hitems] at hlisted
    constructor
    · rw [← himport.length_listed, ← hsound.length_listed,
        ← List.length_map HistoryItem.content, hlisted, List.length_map]
    · rw [map_commandLine, hlisted, List.map_map]
      exact List.map_congr_left fun item hitem =>
        stripCr_eq_self.2 (hplain item hitem).noCr
    · rintro rfl
      rw [map_timestamp, hlisted, List.map_map]
      refine List.map_congr_left fun item _ => ?_
      show (readTimestamp clock true item).map clock.timestamp = _
      unfold readTimestamp
      cases htime : item.timestamp with
      | none => rfl
      | some t => exact hclock.fromTimestamp_timestamp t

/-! ## Examples -/

abbrev DateSeconds := { n : Int // -8334601228800 ≤ n ∧ n ≤ 8210266876799 }

def secondsClock : Clock DateSeconds where
  timestamp := Subtype.val
  fromTimestamp n :=
    if h : -8334601228800 ≤ n ∧ n ≤ 8210266876799 then some ⟨n, h⟩ else none

theorem secondsClock_lawful : secondsClock.Lawful where
  isI64 t := by
    obtain ⟨n, hlow, hhigh⟩ := t
    show -2 ^ 63 ≤ n ∧ n < 2 ^ 63
    omega
  fromTimestamp_timestamp t := by
    have hfrom : secondsClock.fromTimestamp (secondsClock.timestamp t) = some t := dif_pos t.2
    rw [hfrom]
    rfl

/-- `ls` and then `pwd`, with the timestamps that are written. -/
theorem roundTrips_two : (run [.add ⟨0, ['l', 's'], some ⟨1750000000, by decide⟩, true⟩,
    .add ⟨0, ['p', 'w', 'd'], none, true⟩]).RoundTrips secondsClock true := by
  refine (roundTrips_iff secondsClock secondsClock_lawful _ true).2 fun item hitem => ?_
  have hlisted : item ∈ [(⟨0, ['l', 's'], some ⟨1750000000, by decide⟩, true⟩ :
      HistoryItem DateSeconds), ⟨1, ['p', 'w', 'd'], none, true⟩] := hitem
  rcases List.mem_cons.1 hlisted with rfl | hlisted
  · exact ⟨by decide, by decide, by decide⟩
  · rw [List.mem_singleton.1 hlisted]
    exact ⟨by decide, by decide, by decide⟩

/-- A comment, two lines, and a carriage return at the end are not read back. -/
theorem not_roundTrips : ¬(run [.add ⟨0, ['#', 'x'], none, true⟩]).RoundTrips secondsClock false ∧
    ¬(run [.add ⟨0, ['a', '\n', 'b'], none, true⟩]).RoundTrips secondsClock false ∧
    ¬(run [.add ⟨0, ['a', '\r'], none, true⟩]).RoundTrips secondsClock false := by
  refine ⟨fun h => ?_, fun h => ?_, fun h => ?_⟩
  · have hcount := h.count
    cases hcount
  · have hcount := h.count
    cases hcount
  · have hlines : [['a']] = [['a', '\r']] := h.commandLines
    cases hlines

end History

end Seahaven.Shell
