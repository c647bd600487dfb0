import Mathlib.Data.Finset.Max
import Mathlib.Tactic.ByContra
import Seahaven.Shell.Failed
import Seahaven.Shell.Printing

/-!
# When a printed value reads back

1. `asciiCount_reread_lt`: a text that is not read back as it was has lost an ASCII character.
2. `reprints_associative_iff`, `reprints_indexed_iff`, `reprints_string_iff`: the values that are
   read back as they were printed.
-/

namespace Seahaven.Shell

open Std Seahaven.Parser

/-! ## What reading back loses -/

def asciiCount (s : List Char) : Nat := s.countP fun c => decide (c.toNat < 0x80)

def asciiBytes (b : List UInt8) : Nat := b.countP fun b => decide (b.toNat < 0x80)

theorem asciiBytes_encode (c : Char) :
    asciiBytes (String.utf8EncodeChar c) = if c.toNat < 0x80 then 1 else 0 := by
  by_cases hc : c.toNat < 0x80
  · rw [encode_low hc, if_pos hc, asciiBytes, List.countP_singleton, UInt8.toNat_ofNat',
      Nat.mod_eq_of_lt (hc.trans (by decide)), decide_eq_true hc, if_pos rfl]
  · have hhigh : ∀ {n : Nat}, 0x80 ≤ n → n < 256 → ¬ (UInt8.ofNat n).toNat < 0x80 :=
      fun {n} h hlt => by
        rw [UInt8.toNat_ofNat', Nat.mod_eq_of_lt hlt]
        omega
    have hval : ¬ c.val.toNat < 0x80 := hc
    rw [if_neg hc, asciiBytes, List.countP_eq_zero]
    simp only [decide_eq_true_eq]
    unfold String.utf8EncodeChar
    dsimp only
    split_ifs
    · omega
    all_goals
      simp only [List.mem_cons, List.not_mem_nil, or_false, forall_eq_or_imp, forall_eq]
    · exact ⟨hhigh (by omega) (by omega), hhigh (by omega) (by omega)⟩
    · exact ⟨hhigh (by omega) (by omega), hhigh (by omega) (by omega),
        hhigh (by omega) (by omega)⟩
    · exact ⟨hhigh (by omega) (by omega), hhigh (by omega) (by omega),
        hhigh (by omega) (by omega), hhigh (by omega) (by omega)⟩

theorem asciiBytes_append (a b : List UInt8) : asciiBytes (a ++ b) = asciiBytes a + asciiBytes b :=
  List.countP_append

theorem asciiCount_cons (c : Char) (s : List Char) :
    asciiCount (c :: s) = asciiCount s + if c.toNat < 0x80 then 1 else 0 := by
  rw [asciiCount, List.countP_cons]
  simp [asciiCount]

theorem decoded_cases (b : List UInt8) : decoded b = [] ∨
    (∃ c rest, b = String.utf8EncodeChar c ++ rest ∧ decoded b = c :: decoded rest) ∨
    ∃ n, decoded b = '\uFFFD' :: decoded (b.drop n) ∧ 0 < n ∧ b ≠ [] := by
  cases b with
  | nil => exact .inl rfl
  | cons x b =>
    right
    cases hchar : decodeChar (x :: b) with
    | some c =>
      have happend := eq_append_of_decodeChar hchar
      refine .inl ⟨c, _, happend, ?_⟩
      conv_lhs => rw [happend]
      exact decoded_encode c _
    | none =>
      refine .inr ⟨invalidLength (x :: b), ?_, invalidLength_pos _, List.cons_ne_nil _ _⟩
      have hlength : ((x :: b).drop (invalidLength (x :: b))).length ≤ b.length := by
        have hpos := invalidLength_pos (x :: b)
        rw [List.length_drop, List.length_cons]
        omega
      have hloop : fromUtf8Lossy (x :: b) =
          .chr '\uFFFD' :: fromUtf8Lossy ((x :: b).drop (invalidLength (x :: b))) := by
        rw [fromUtf8Lossy, List.length_cons, lossyLoop, hchar]
        · dsimp only
          rw [lossyLoop_fuel _ _ hlength]
        · exact List.cons_ne_nil _ _
      unfold decoded
      rw [hloop]
      rfl

theorem asciiCount_decoded_le (b : List UInt8) : asciiCount (decoded b) ≤ asciiBytes b := by
  induction hn : b.length using Nat.strongRecOn generalizing b with
  | ind n ih =>
    subst hn
    rcases decoded_cases b with hnil | ⟨c, rest, rfl, hcons⟩ | ⟨k, hcons, hk, hne⟩
    · rw [hnil]
      exact Nat.zero_le _
    · have hlt : rest.length < (String.utf8EncodeChar c ++ rest).length := by
        have hpos := c.utf8Size_pos
        rw [List.length_append, String.length_utf8EncodeChar]
        omega
      have hrest := ih rest.length hlt rest rfl
      rw [hcons, asciiCount_cons, asciiBytes_append, asciiBytes_encode]
      omega
    · have hlt : (b.drop k).length < b.length := by
        have hpos := List.length_pos_of_ne_nil hne
        rw [List.length_drop]
        omega
      have hrest := ih _ hlt (b.drop k) rfl
      have hdrop : asciiBytes (b.drop k) ≤ asciiBytes b := (List.drop_sublist k b).countP_le
      have hzero :
          asciiCount ('\uFFFD' :: decoded (b.drop k)) = asciiCount (decoded (b.drop k)) := by
        rw [asciiCount_cons, if_neg (by decide), Nat.add_zero]
      rw [hcons, hzero]
      exact hrest.trans hdrop

theorem asciiBytes_readBack (s : List Char) :
    asciiBytes (readBack s) ≤ asciiCount s ∧
      (asciiBytes (readBack s) = asciiCount s → Apart s) := by
  induction hn : s.length using Nat.strongRecOn generalizing s with
  | ind n ih =>
    subst hn
    cases s with
    | nil => exact ⟨Nat.le_refl _, fun _ => apart_of_noControl rfl⟩
    | cons c s =>
      rcases merges_or_apart c s with ⟨d, s, rfl, hm⟩ | hap
      · obtain ⟨hle, -⟩ :=
          ih s.length (Nat.lt_add_of_pos_right (n := s.length) (k := 2) (by decide)) s rfl
        obtain ⟨hzero, hoctal⟩ := Bool.and_eq_true _ _ ▸ hm
        have hc : c.toNat < 0x80 := (low_of_writtenFromZero hzero).trans (by decide)
        have hd : d.toNat < 0x80 := by
          rw [isOctalDigit, Bool.and_eq_true, decide_eq_true_eq, decide_eq_true_eq] at hoctal
          exact Nat.lt_of_le_of_lt (m := '7'.toNat) hoctal.2 (by decide)
        have hone : asciiBytes (readBack (c :: d :: s)) ≤ 1 + asciiBytes (readBack s) := by
          rw [readBack_merged hm, asciiBytes, List.countP_cons]
          simp only [asciiBytes]
          split_ifs <;> omega
        rw [asciiCount_cons, asciiCount_cons, if_pos hc, if_pos hd]
        exact ⟨by omega, fun h => by omega⟩
      · obtain ⟨hle, heq⟩ := ih s.length (Nat.lt_succ_self _) s rfl
        rw [readBack_apart hap, asciiBytes_append, asciiBytes_encode, asciiCount_cons]
        exact ⟨by omega, fun h => apart_cons.2 ⟨hap, heq (by omega)⟩⟩

variable {s : List Char}

/-- **A text that is not read back as it was** has lost an ASCII character. -/
theorem asciiCount_reread_lt (hs : '\x00' ∉ s) (hne : reread s ≠ s) :
    asciiCount (reread s) < asciiCount s := by
  obtain ⟨hle, heq⟩ := asciiBytes_readBack s
  have hdecoded := asciiCount_decoded_le (readBack s)
  refine Nat.lt_of_le_of_ne (hdecoded.trans hle) fun h => hne ?_
  exact (decoded_readBack_iff hs).2 (heq (Nat.le_antisymm hle (h ▸ hdecoded)))

theorem fixes_of_reaches {α : Type} [DecidableEq α] {l : List α} {f : α → α} (size : α → Nat)
    (hsize : ∀ a ∈ l, f a ≠ a → size (f a) < size a) (hreach : ∀ a ∈ l, ∃ b ∈ l, f b = a) :
    ∀ a ∈ l, f a = a := by
  by_contra! hbad
  obtain ⟨a, ha, hmoves⟩ := hbad
  obtain ⟨b, hb, hmax⟩ := (l.toFinset.filter fun a => f a ≠ a).exists_max_image size
    ⟨a, by simp [ha, hmoves]⟩
  rw [Finset.mem_filter, List.mem_toFinset] at hb
  obtain ⟨c, hc, rfl⟩ := hreach b hb.1
  have hne : f c ≠ c := fun h => hb.2 (congrArg f h)
  have hle := hmax c (by simp [hc, hne])
  exact absurd (hsize c hc hne) (Nat.not_lt.2 hle)

/-! ## Pairs -/

section

variable {α β : Type} {cmp : α → α → Ordering} [TransCmp cmp] [LawfulEqCmp cmp] [DecidableEq α]

theorem mem_of_lastValue {pairs : List (α × β)} {key : α} {b : β}
    (h : lastValue pairs key = some b) : (key, b) ∈ pairs := by
  obtain ⟨p, hp, rfl⟩ := Option.map_eq_some_iff.1 h
  have hkey : p.1 = key := by simpa using List.find?_some hp
  rw [← hkey]
  exact List.mem_reverse.1 (List.mem_of_find?_eq_some hp)

theorem lastValue_isSome {pairs : List (α × β)} {p : α × β} (h : p ∈ pairs) :
    ∃ b, lastValue pairs p.1 = some b := by
  cases hlast : lastValue pairs p.1 with
  | some b => exact ⟨b, rfl⟩
  | none =>
    rw [lastValue, Option.map_eq_none_iff, List.find?_eq_none] at hlast
    exact absurd (by simp) (hlast p (List.mem_reverse.2 h))

theorem insertPairs_toList (values : ExtTreeMap α β cmp) :
    insertPairs (∅ : ExtTreeMap α β cmp) values.toList = values := by
  refine ExtTreeMap.ext_getElem? fun key => ?_
  rw [getElem?_insertPairs]
  cases hkey : values[key]? with
  | some b =>
    have hmem : (key, b) ∈ values.toList := ExtTreeMap.mem_toList_iff_getElem?_eq_some.2 hkey
    obtain ⟨b', hb'⟩ := lastValue_isSome hmem
    have hsame := ExtTreeMap.mem_toList_iff_getElem?_eq_some.1 (mem_of_lastValue hb')
    rw [hb', Option.some_or, ← hsame]
    exact hkey
  | none =>
    cases hlast : lastValue values.toList key with
    | some b =>
      have hsome := ExtTreeMap.mem_toList_iff_getElem?_eq_some.1 (mem_of_lastValue hlast)
      rw [hkey] at hsome
      cases hsome
    | none => exact ExtTreeMap.getElem?_empty

theorem mem_of_getElem?_insertPairs {pairs : List (α × β)} {key : α} {b : β}
    (h : (insertPairs (∅ : ExtTreeMap α β cmp) pairs)[key]? = some b) : (key, b) ∈ pairs := by
  rw [getElem?_insertPairs, ExtTreeMap.getElem?_empty, Option.or_none] at h
  exact mem_of_lastValue h

theorem mem_insertPairs {pairs : List (α × β)} {p : α × β} (h : p ∈ pairs) :
    ∃ b, (insertPairs (∅ : ExtTreeMap α β cmp) pairs)[p.1]? = some b := by
  obtain ⟨b, hb⟩ := lastValue_isSome h
  exact ⟨b, by rw [getElem?_insertPairs, hb, Option.some_or]⟩

omit [LawfulEqCmp cmp] [DecidableEq α] in
theorem size_insertPairs_le (m : ExtTreeMap α β cmp) (pairs : List (α × β)) :
    (insertPairs m pairs).size ≤ m.size + pairs.length := by
  induction pairs generalizing m with
  | nil => exact Nat.le_refl _
  | cons p pairs ih =>
    have hrest := ih (m.insert p.1 p.2)
    have hone : (m.insert p.1 p.2).size ≤ m.size + 1 := ExtTreeMap.size_insert_le
    rw [List.length_cons]
    exact hrest.trans (by omega)

end

/-! ## Literals of printed arrays -/

theorem stored_keyed (pairs : List (List Char × List Char)) :
    stored none (pairs.map fun p => (some p.1, p.2)) = pairs ∧
      misaligned none (pairs.map fun p => (some p.1, p.2)) = false := by
  induction pairs with
  | nil => exact ⟨rfl, rfl⟩
  | cons p pairs ih => exact ⟨congrArg (p :: ·) ih.1, ih.2⟩

theorem length_stored_le (literals : List (Option (List Char) × List Char)) :
    ∀ current : Option (List Char), 2 * (stored current literals).length ≤
      2 * literals.countP (·.1.isSome) + literals.countP (·.1.isNone) +
        if current.isSome then 2 else 1 := by
  induction literals with
  | nil =>
    intro current
    cases current <;> simp [stored]
  | cons l literals ih =>
    obtain ⟨key, value⟩ := l
    intro current
    have hnone := ih none
    have hsome := ih (some value)
    cases current <;> cases key <;> simp [stored] at * <;> omega

theorem mem_stored {literals : List (Option (List Char) × List Char)}
    (haligned : misaligned none literals = false) (h : ∃ l ∈ literals, l.1 = none) :
    ∃ w x, (none, w) ∈ literals ∧ (w, x) ∈ stored none literals := by
  induction literals with
  | nil =>
    obtain ⟨l, hl, -⟩ := h
    cases hl
  | cons l literals ih =>
    obtain ⟨key, value⟩ := l
    cases key with
    | some key =>
      have hrest : ∃ l ∈ literals, l.1 = none := by
        obtain ⟨l, hl, hnone⟩ := h
        rcases List.mem_cons.1 hl with rfl | hl
        · cases hnone
        · exact ⟨l, hl, hnone⟩
      obtain ⟨w, x, hw, hx⟩ := ih haligned hrest
      exact ⟨w, x, List.mem_cons_of_mem _ hw, List.mem_cons_of_mem _ hx⟩
    | none =>
      cases literals with
      | nil => exact ⟨value, [], List.mem_cons_self, List.mem_cons_self⟩
      | cons next literals =>
        obtain ⟨key, value'⟩ := next
        cases key with
        | some key => cases haligned
        | none => exact ⟨value, value', List.mem_cons_self, List.mem_cons_self⟩

/-! ## Elements that were printed -/

theorem eq_map_of_mapM {α β γ : Type} {f : β → Option γ} {g : α → β} {h : α → γ} {l : List α}
    {r : List γ} (hf : ∀ a ∈ l, f (g a) = none ∨ f (g a) = some (h a))
    (hr : (l.map g).mapM f = some r) : r = l.map h := by
  induction l generalizing r with
  | nil => simpa using hr.symm
  | cons a l ih =>
    obtain ⟨ha, hl⟩ := List.forall_mem_cons.1 hf
    rw [List.map_cons, List.mapM_cons] at hr
    obtain ⟨b, hb, hr⟩ := Option.bind_eq_some_iff.1 hr
    obtain ⟨bs, hbs, hr⟩ := Option.bind_eq_some_iff.1 hr
    obtain rfl : b = h a := by
      rcases ha with ha | ha
      · rw [ha] at hb
        cases hb
      · exact Option.some.inj (hb.symm.trans ha)
    rw [List.map_cons, ← ih hl hbs]
    exact (Option.some.inj hr).symm

theorem mapM_map_eq_some {α β γ : Type} {f : β → Option γ} {g : α → β} {h : α → γ} {l : List α}
    (hf : ∀ a ∈ l, f (g a) = some (h a)) : (l.map g).mapM f = some (l.map h) := by
  induction l with
  | nil => rfl
  | cons a l ih =>
    obtain ⟨ha, hl⟩ := List.forall_mem_cons.1 hf
    rw [List.map_cons, List.mapM_cons, ha, ih hl]
    rfl

def literalOf (entry : List Char × List Char) : Option (List Char) × List Char :=
  if ']' ∈ entry.1 then (none, '[' :: (reread entry.1 ++ ']' :: '=' :: reread entry.2))
  else (some (reread entry.1), reread entry.2)

section

variable {P A B : Type} {R : WordRules P A B} {X : Expander P A} {st : X.State}
  {po : ParserOptions} {o : TokenizerOptions} {g : Getters}

theorem formatEntry_units (entry : List Char × List Char) : ∃ us vs,
    DoubleQuoted false entry.1 us ∧ DoubleQuoted true entry.2 vs ∧
      ShellValue.formatEntry entry = elementText (Quoting.textOf us) (Quoting.textOf vs) := by
  obtain ⟨us, hus, hkey⟩ := DoubleQuoted.of_quote false entry.1
  obtain ⟨vs, hvs, hvalue⟩ := DoubleQuoted.of_quote true entry.2
  refine ⟨us, vs, hus, hvs, ?_⟩
  rw [← hkey, ← hvalue]
  rfl

variable {entry : List Char × List Char}

theorem isElement_formatEntry
    (h : '\x00' ∉ entry.1 ∧ '\x00' ∉ entry.2) : IsElement (ShellValue.formatEntry entry) := by
  obtain ⟨us, vs, hus, hvs, hform⟩ := formatEntry_units entry
  exact ⟨us, vs, hus.scannable h.1, hvs.scannable h.2, hform⟩

theorem elementLiteral_formatEntry
    (h : '\x00' ∉ entry.1 ∧ '\x00' ∉ entry.2) (hbracket : ']' ∉ entry.1) :
    elementLiteral R X st (ShellValue.formatEntry entry) =
      some (some (reread entry.1), reread entry.2) := by
  obtain ⟨us, vs, hus, hvs, hform⟩ := formatEntry_units entry
  rw [hform]
  exact DoubleQuoted.elementLiteral_eq hus hvs h.1 h.2 hbracket

theorem elementLiteral_literalOf (hR : FollowsGrammar R po)
    (h : '\x00' ∉ entry.1 ∧ '\x00' ∉ entry.2) :
    elementLiteral R X st (ShellValue.formatEntry entry) = none ∨
      elementLiteral R X st (ShellValue.formatEntry entry) = some (literalOf entry) := by
  rw [literalOf]
  by_cases hbracket : ']' ∈ entry.1
  · obtain ⟨us, vs, hus, hvs, hform⟩ := formatEntry_units entry
    rw [if_pos hbracket, hform]
    exact DoubleQuoted.elementLiteral_bracket hR hus hvs h.1 h.2 hbracket
  · rw [if_neg hbracket]
    exact .inr (elementLiteral_formatEntry h hbracket)

theorem digits_plain (n : Nat) : '\x00' ∉ Nat.toDigits 10 n ∧ ']' ∉ Nat.toDigits 10 n ∧
    (Nat.toDigits 10 n).any needsAnsiCQuoting = false ∧
      quoteIfNeeded (Nat.toDigits 10 n) .doubleQuote = Nat.toDigits 10 n := by
  have hdigits : ∀ c ∈ Nat.toDigits 10 n, c.isDigit = true := fun c hc =>
    Nat.isDigit_of_mem_toDigits (by decide) (by decide) hc
  have hne : Nat.toDigits 10 n ≠ [] := Nat.toDigits_ne_nil
  generalize Nat.toDigits 10 n = digits at hdigits hne
  have hctl : digits.any needsAnsiCQuoting = false := by
    rw [List.any_eq_false]
    intro c hc
    have hrange := hdigits c hc
    rw [Char.isDigit, Bool.and_eq_true, decide_eq_true_eq, decide_eq_true_eq] at hrange
    have hlow : '0'.toNat ≤ c.toNat := hrange.1
    have hhigh : c.toNat ≤ '9'.toNat := hrange.2
    change 48 ≤ c.toNat at hlow
    change c.toNat ≤ 57 at hhigh
    simp [needsAnsiCQuoting]
    omega
  have hescaping : digits.any needsEscaping = false := by
    rw [List.any_eq_false]
    intro c hc hneeds
    have hplain := Quoting.tildeName_plain (.inl fun c hc => portable_of_digit (hdigits c hc)) c hc
    rw [hplain] at hneeds
    cases hneeds
  refine ⟨fun h => absurd (hdigits _ h) (by decide), fun h => absurd (hdigits _ h) (by decide),
    hctl, ?_⟩
  cases digits with
  | nil => exact absurd rfl hne
  | cons c digits =>
    have hansi : ((c :: digits).any fun c => needsAnsiCQuoting c &&
        (!(QuoteOptions.of false .doubleQuote).avoidAnsiCQuotingNewline || c != '\n')) = false := by
      rw [← hctl]
      congr 1
      funext c
      exact Bool.and_true _
    change quote (c :: digits) (.of false .doubleQuote) = _
    rw [quote, hansi, hescaping]
    rfl

theorem formatIndexed_eq (entry : Nat × List Char) :
    ShellValue.formatIndexed entry = ShellValue.formatEntry (Nat.toDigits 10 entry.1, entry.2) := by
  rw [ShellValue.formatEntry, (digits_plain entry.1).2.2.2]
  rfl

theorem elementLiteral_formatIndexed {entry : Nat × List Char} (h : '\x00' ∉ entry.2) :
    elementLiteral R X st (ShellValue.formatIndexed entry) =
      some (some (Nat.toDigits 10 entry.1), reread entry.2) := by
  obtain ⟨hnul, hbracket, hctl, -⟩ := digits_plain entry.1
  rw [formatIndexed_eq, elementLiteral_formatEntry ⟨hnul, h⟩ hbracket,
    reread_of_noControl hnul hctl]

/-! ## Arrays -/

theorem endsWith_associative {values : ExtTreeMap (List Char) (List Char)}
    (h : ∀ entry ∈ values.toList, '\x00' ∉ entry.1 ∧ '\x00' ∉ entry.2) :
    EndsWith o ((ShellValue.associativeArray values).format g .declarePrint)
      fun tokens => arrayLiteral tokens = some (values.toList.map ShellValue.formatEntry) := by
  have hes : ∀ e ∈ values.toList.map ShellValue.formatEntry, IsElement e := fun e he => by
    obtain ⟨entry, hentry, rfl⟩ := List.mem_map.1 he
    exact isElement_formatEntry (h entry hentry)
  have htext : (ShellValue.associativeArray values).format g .declarePrint =
      '(' :: (((values.toList.map ShellValue.formatEntry).flatMap fun e => e ++ [' ']) ++
        [')']) := by
    rw [List.flatMap_map]
    rfl
  rw [htext]
  exact endsWith_closed (scan_entries hes (amid_opened o _))

theorem endsWith_indexed {values : ExtTreeMap Nat (List Char)}
    (h : ∀ entry ∈ values.toList, '\x00' ∉ entry.2) :
    EndsWith o ((ShellValue.indexedArray values).format g .declarePrint)
      fun tokens => arrayLiteral tokens = some (values.toList.map ShellValue.formatIndexed) := by
  have hes : ∀ e ∈ values.toList.map ShellValue.formatIndexed, IsElement e := fun e he => by
    obtain ⟨entry, hentry, rfl⟩ := List.mem_map.1 he
    rw [formatIndexed_eq]
    exact isElement_formatEntry ⟨(digits_plain entry.1).1, h entry hentry⟩
  exact endsWith_closed (scan_intercalated hes (amid_opened o _))

theorem associativeArrayFromLiterals_eq_iff (literals : List (Option (List Char) × List Char))
    (values : ExtTreeMap (List Char) (List Char)) :
    ShellValue.associativeArrayFromLiterals literals = .ok (.associativeArray values) ↔
      misaligned none literals = false ∧ insertPairs ∅ (stored none literals) = values := by
  rw [ShellValue.associativeArrayFromLiterals, ShellValue.updateAssociativeArrayFromLiterals,
    updateAssociativeLoop_eq]
  cases misaligned none literals with
  | true => exact iff_of_false nofun (fun h => nomatch h.1)
  | false =>
    constructor
    · intro h
      exact ⟨rfl, ShellValue.associativeArray.inj (Except.ok.inj h)⟩
    · rintro ⟨-, rfl⟩
      rfl

theorem ne_bracketed (s : List Char) {t : List Char} : s ≠ '[' :: (reread s ++ t) := by
  induction s generalizing t with
  | nil => exact nofun
  | cons c s ih =>
    intro h
    obtain ⟨rfl, hs⟩ := List.cons.inj h
    have hhead : reread ('[' :: s) = '[' :: reread s := by
      rw [reread, readBack_cons rfl, decoded_encode, reread]
    rw [hhead] at hs
    exact ih hs

theorem eq_of_length_le_one {α : Type} {l : List α} {a b : α} (h : l.length ≤ 1) (ha : a ∈ l)
    (hb : b ∈ l) : a = b := by
  cases l with
  | nil => cases ha
  | cons x l =>
    obtain rfl : l = [] := List.eq_nil_of_length_eq_zero (by simpa using h)
    rw [List.mem_singleton.1 ha, List.mem_singleton.1 hb]

theorem bracket_not_mem_of_rebuilt {values : ExtTreeMap (List Char) (List Char)}
    (haligned : misaligned none (values.toList.map literalOf) = false)
    (hvalues : insertPairs ∅ (stored none (values.toList.map literalOf)) = values) :
    ∀ entry ∈ values.toList, ']' ∉ entry.1 := by
  by_contra! hbad
  obtain ⟨entry, hentry, hbracket⟩ := hbad
  have hliteral : ∀ e : List Char × List Char, (literalOf e).1 = none ↔ ']' ∈ e.1 := fun e => by
    unfold literalOf
    split_ifs with h <;> simp [h]
  -- two such elements make one pair, so there is one of them at most
  have hone : (values.toList.filter fun e => decide (']' ∈ e.1)).length ≤ 1 := by
    have hstored := length_stored_le (values.toList.map literalOf) none
    have hsize := size_insertPairs_le (∅ : ExtTreeMap (List Char) (List Char))
      (stored none (values.toList.map literalOf))
    have hsplit := List.length_eq_countP_add_countP (fun l => l.1.isSome)
      (l := values.toList.map literalOf)
    have hnone : ∀ p : Option (List Char) × List Char → Bool, (∀ l, p l = l.1.isNone) →
        (values.toList.map literalOf).countP p =
          (values.toList.filter fun e => decide (']' ∈ e.1)).length := by
      intro p hp
      rw [List.countP_map, ← List.countP_eq_length_filter]
      refine List.countP_congr fun e _ => ?_
      rw [Function.comp_apply, hp, Option.isNone_iff_eq_none, hliteral, decide_eq_true_eq]
    rw [hnone (fun l => decide ¬ l.1.isSome = true) fun l => by cases l.1 <;> rfl] at hsplit
    rw [hnone _ fun l => rfl] at hstored
    rw [hvalues, ExtTreeMap.size_empty] at hsize
    rw [List.length_map, ExtTreeMap.length_toList] at hsplit
    have hcurrent : (if (none : Option (List Char)).isSome then 2 else 1) = 1 := rfl
    omega
  have hexists : ∃ l ∈ values.toList.map literalOf, l.1 = none :=
    ⟨_, List.mem_map_of_mem hentry, (hliteral entry).2 hbracket⟩
  obtain ⟨w, x, hw, hx⟩ := mem_stored haligned hexists
  obtain ⟨source, hsource, hsourceLiteral⟩ := List.mem_map.1 hw
  have hsourceBracket : ']' ∈ source.1 := (hliteral source).1 (by rw [hsourceLiteral])
  -- the text of the whole element is a key
  have hkey : w = '[' :: (reread source.1 ++ ']' :: '=' :: reread source.2) := by
    rw [literalOf, if_pos hsourceBracket] at hsourceLiteral
    exact (Prod.mk.inj hsourceLiteral).2.symm
  obtain ⟨b, hb⟩ := @mem_insertPairs _ _ compare _ _ _ _ _ hx
  rw [hvalues] at hb
  have hkeyEntry : (w, b) ∈ values.toList := ExtTreeMap.mem_toList_iff_getElem?_eq_some.2 hb
  have hsame : source = (w, b) := by
    have hsourceIn : source ∈ values.toList.filter fun e => decide (']' ∈ e.1) :=
      List.mem_filter.2 ⟨hsource, decide_eq_true hsourceBracket⟩
    have hkeyIn : (w, b) ∈ values.toList.filter fun e => decide (']' ∈ e.1) :=
      List.mem_filter.2 ⟨hkeyEntry, decide_eq_true (by rw [hkey]; simp)⟩
    exact eq_of_length_le_one hone hsourceIn hkeyIn
  rw [hsame] at hkey
  exact ne_bracketed _ hkey

/-! ## Round trips -/

variable (R X st o g) in
def ArrayReprints (fromLiterals : List (Option (List Char) × List Char) → Except Fault ShellValue)
    (value : ShellValue) : Prop :=
  ∃ literals, ReadsArray R X st o (value.format g .declarePrint) literals ∧
    fromLiterals literals = .ok value

variable (R X st o g) in
/-- A text that is written to be assigned is one word, and reads back as what it was. -/
def TextReprints (s : List Char) : Prop :=
  ∀ index, Scans o ((ShellValue.string s).toAssignableStr g index)
      [(ShellValue.string s).toAssignableStr g index] ∧
    quoteRemoval R X st ((ShellValue.string s).toAssignableStr g index) = some s

/-- **Associative arrays.** -/
theorem reprints_associative_iff (hR : FollowsGrammar R po)
    (values : ExtTreeMap (List Char) (List Char))
    (h : ∀ key value : List Char, values[key]? = some value → '\x00' ∉ key ∧ '\x00' ∉ value) :
    ArrayReprints R X st o g ShellValue.associativeArrayFromLiterals (.associativeArray values) ↔
      ∀ key value : List Char, values[key]? = some value →
        ']' ∉ key ∧ Apart key ∧ Apart value := by
  have hnul : ∀ entry ∈ values.toList, '\x00' ∉ entry.1 ∧ '\x00' ∉ entry.2 := fun entry hentry =>
    h _ _ (ExtTreeMap.mem_toList_iff_getElem?_eq_some.1 hentry)
  have hends := endsWith_associative (o := o) (g := g) hnul
  have hbare : (∀ entry ∈ values.toList, ']' ∉ entry.1) → values.toList.map literalOf =
      (values.toList.map fun e => (reread e.1, reread e.2)).map fun p => (some p.1, p.2) := by
    intro hbracket
    rw [List.map_map]
    refine List.map_congr_left fun entry hentry => ?_
    rw [literalOf, if_neg (hbracket entry hentry)]
    rfl
  constructor
  · rintro ⟨literals, hreads, hrebuilt⟩
    rw [readsArray_iff hends] at hreads
    obtain rfl := eq_map_of_mapM (fun entry hentry => elementLiteral_literalOf hR
      (hnul entry hentry)) hreads
    obtain ⟨haligned, hvalues⟩ := (associativeArrayFromLiterals_eq_iff _ _).1 hrebuilt
    have hbracket := bracket_not_mem_of_rebuilt haligned hvalues
    rw [hbare hbracket, (stored_keyed _).1] at hvalues
    -- every pair of the array is one that was read
    have hfrom : ∀ entry ∈ values.toList, ∃ e ∈ values.toList,
        reread e.1 = entry.1 ∧ reread e.2 = entry.2 := by
      intro entry hentry
      have hvalue := ExtTreeMap.mem_toList_iff_getElem?_eq_some.1 hentry
      rw [← hvalues] at hvalue
      obtain ⟨e, he, heq⟩ := List.mem_map.1 (mem_of_getElem?_insertPairs hvalue)
      exact ⟨e, he, (Prod.mk.inj heq).1, (Prod.mk.inj heq).2⟩
    have hkeys : ∀ key ∈ values.toList.map Prod.fst, reread key = key := by
      refine fixes_of_reaches asciiCount (fun key hkey hne => ?_) fun key hkey => ?_
      · obtain ⟨entry, hentry, rfl⟩ := List.mem_map.1 hkey
        exact asciiCount_reread_lt (hnul entry hentry).1 hne
      · obtain ⟨entry, hentry, rfl⟩ := List.mem_map.1 hkey
        obtain ⟨e, he, hkey, -⟩ := hfrom entry hentry
        exact ⟨e.1, List.mem_map_of_mem he, hkey⟩
    intro key value hvalue
    have hentry : (key, value) ∈ values.toList :=
      ExtTreeMap.mem_toList_iff_getElem?_eq_some.2 hvalue
    obtain ⟨hkey, hval⟩ := hnul _ hentry
    obtain ⟨⟨key', value'⟩, he, hkeyEq, hvalueEq⟩ := hfrom _ hentry
    obtain rfl : key' = key := (hkeys key' (List.mem_map_of_mem he)).symm.trans hkeyEq
    obtain rfl : value' = value := by
      have hvalue' := ExtTreeMap.mem_toList_iff_getElem?_eq_some.1 he
      exact Option.some.inj (hvalue'.symm.trans hvalue)
    exact ⟨hbracket _ hentry, (decoded_readBack_iff hkey).1 hkeyEq,
      (decoded_readBack_iff hval).1 hvalueEq⟩
  · intro hwell
    have hall : ∀ entry ∈ values.toList, ']' ∉ entry.1 ∧ Apart entry.1 ∧ Apart entry.2 :=
      fun entry hentry => hwell _ _ (ExtTreeMap.mem_toList_iff_getElem?_eq_some.1 hentry)
    have hsame : values.toList.map (fun e => (reread e.1, reread e.2)) = values.toList := by
      refine (List.map_congr_left fun entry hentry => ?_).trans (List.map_id _)
      obtain ⟨-, hkey, hvalue⟩ := hall entry hentry
      exact Prod.ext ((decoded_readBack_iff (hnul entry hentry).1).2 hkey)
        ((decoded_readBack_iff (hnul entry hentry).2).2 hvalue)
    refine ⟨_, (readsArray_iff hends).2 (mapM_map_eq_some (h := fun entry =>
      (some (reread entry.1), reread entry.2)) fun entry hentry =>
        elementLiteral_formatEntry (hnul entry hentry) (hall entry hentry).1), ?_⟩
    have hpairs : values.toList.map (fun e => (some (reread e.1), reread e.2)) =
        values.toList.map fun p => (some p.1, p.2) := by
      conv_rhs => rw [← hsame, List.map_map]
      rfl
    rw [hpairs, associativeArrayFromLiterals_eq_iff, (stored_keyed _).1, (stored_keyed _).2]
    exact ⟨rfl, insertPairs_toList values⟩

theorem foldl_insertLiteral_keyed (pairs : List (Nat × List Char))
    (h : ∀ p ∈ pairs, p.1 < 2 ^ 64) (next : Nat) (values : ExtTreeMap Nat (List Char)) :
    ((pairs.map fun p => (some (Nat.toDigits 10 p.1), p.2)).foldl ShellValue.insertLiteral
      (next, values)).2 = insertPairs values pairs := by
  induction pairs generalizing next values with
  | nil => rfl
  | cons p pairs ih =>
    obtain ⟨hp, hpairs⟩ := List.forall_mem_cons.1 h
    have hparse : (parseU64 (Nat.toDigits 10 p.1)).getD 0 = p.1 := by
      rw [(parse_toDigits p.1).2, if_pos hp, Option.getD_some]
    rw [List.map_cons, List.foldl_cons, ShellValue.insertLiteral]
    dsimp only
    rw [hparse, ih hpairs]
    rfl

/-- **Indexed arrays.** -/
theorem reprints_indexed_iff (values : ExtTreeMap Nat (List Char))
    (h : ∀ (key : Nat) (value : List Char), values[key]? = some value →
      key < 2 ^ 64 ∧ '\x00' ∉ value) :
    ArrayReprints R X st o g (fun l => .ok (ShellValue.indexedArrayFromLiterals l))
        (.indexedArray values) ↔
      ∀ (key : Nat) (value : List Char), values[key]? = some value → Apart value := by
  have hfits : ∀ entry ∈ values.toList, entry.1 < 2 ^ 64 ∧ '\x00' ∉ entry.2 :=
    fun entry hentry => h _ _ (ExtTreeMap.mem_toList_iff_getElem?_eq_some.1 hentry)
  have hends := endsWith_indexed (o := o) (g := g) fun entry hentry => (hfits entry hentry).2
  have hread : (values.toList.map ShellValue.formatIndexed).mapM (elementLiteral R X st) =
      some (values.toList.map fun e => (some (Nat.toDigits 10 e.1), reread e.2)) :=
    mapM_map_eq_some fun entry hentry => elementLiteral_formatIndexed (hfits entry hentry).2
  have hrebuilt : ShellValue.indexedArrayFromLiterals
      (values.toList.map fun e => (some (Nat.toDigits 10 e.1), reread e.2)) =
        .indexedArray (insertPairs ∅ (values.toList.map fun e => (e.1, reread e.2))) := by
    have hkeyed := fun next => foldl_insertLiteral_keyed
      (values.toList.map fun e => (e.1, reread e.2)) (fun p hp => by
        obtain ⟨e, he, rfl⟩ := List.mem_map.1 hp
        exact (hfits e he).1) next ∅
    simp only [List.map_map] at hkeyed
    exact congrArg ShellValue.indexedArray (hkeyed _)
  have hiff : ArrayReprints R X st o g (fun l => .ok (ShellValue.indexedArrayFromLiterals l))
      (.indexedArray values) ↔
        insertPairs ∅ (values.toList.map fun e => (e.1, reread e.2)) = values := by
    unfold ArrayReprints
    simp only [readsArray_iff hends, hread, Option.some.injEq, exists_eq_left']
    rw [hrebuilt, Except.ok.injEq, ShellValue.indexedArray.injEq]
  rw [hiff]
  constructor
  · intro hvalues key value hvalue
    have hmem := hvalue
    rw [← hvalues] at hmem
    obtain ⟨e, he, heq⟩ := List.mem_map.1 (mem_of_getElem?_insertPairs hmem)
    obtain ⟨rfl, hreread⟩ := Prod.mk.inj heq
    have hsame := ExtTreeMap.mem_toList_iff_getElem?_eq_some.1 he
    obtain rfl : e.2 = value := Option.some.inj (hsame.symm.trans hvalue)
    exact (decoded_readBack_iff (hfits e he).2).1 hreread
  · intro hwell
    have hsame : values.toList.map (fun e => (e.1, reread e.2)) = values.toList := by
      refine (List.map_congr_left fun entry hentry => ?_).trans (List.map_id _)
      refine Prod.ext rfl ((decoded_readBack_iff (hfits entry hentry).2).2 ?_)
      exact hwell _ _ (ExtTreeMap.mem_toList_iff_getElem?_eq_some.1 hentry)
    rw [hsame]
    exact insertPairs_toList values

theorem singleQuoted_units (hs : '\x00' ∉ s) : ∃ us : List Quoting.Unit,
    (∀ u ∈ us, u.Ok) ∧ .escaped '$' ∉ us ∧ us.head? ≠ some (.plain '#') ∧
      Quoting.textOf us ≠ [] ∧ forceQuote s .singleQuote = Quoting.textOf us ∧
      Quoting.valueOf us = reread s := by
  cases hctl : s.any needsAnsiCQuoting with
  | true =>
    refine ⟨[.ansi s], fun u hu => ?_, nofun, nofun, List.cons_ne_nil _ _, ?_, List.append_nil _⟩
    · obtain rfl := List.mem_singleton.1 hu
      exact hs
    · have hansi : (s.any fun c => needsAnsiCQuoting c && (!false || c != '\n')) = true := by
        simpa using hctl
      rw [forceQuote, quote, hansi, if_pos rfl]
      exact (List.append_nil _).symm
  | false =>
    rcases Quoting.quote_cases (q := .of true .singleQuote) hctl with
      ⟨-, hbare, -⟩ | ⟨-, us, hus, hquote, hvalue⟩
    · cases hbare
    · obtain ⟨c, t, htext, -⟩ := hus.starts
      refine ⟨us, hus.ok, hus.dollar, hus.noPlain, ?_, hquote, ?_⟩
      · rw [htext]
        exact List.cons_ne_nil _ _
      · rw [hvalue, reread_of_noControl hs hctl]

/-- **Texts.** -/
theorem reprints_string_iff (hs : '\x00' ∉ s) :
    TextReprints R X st o g s ↔ Apart s := by
  obtain ⟨us, hok, hdollar, hhead, hne, hquote, hvalue⟩ := singleQuoted_units hs
  have htext : ∀ index, (ShellValue.string s).toAssignableStr g index = Quoting.textOf us :=
    fun _ => hquote
  have hscan : Scans o (Quoting.textOf us) [Quoting.textOf us] := by
    have hstart : Amid o (Quoting.textOf us) (AreWords []) .none false []
        (Quoting.textOf us ++ []) := by
      rw [List.append_nil]
      exact at_init o _
    exact ((Quoting.scan_units hok hstart (.inr hhead) (.inr ⟨hdollar, nofun⟩)).ends hne).mono
      fun _ => AreWords.followed
  unfold TextReprints
  simp only [htext, hscan, quoteRemoval_units R X st hok, hvalue, Option.some.injEq, true_and,
    forall_const]
  exact decoded_readBack_iff hs

end

/-- **Printed and read back.** An associative array is what it was just if no key holds a closing
bracket and no octal digit follows an octal escape in a key or in a value; an indexed array and a
text just if none does in a value. -/
theorem reprints_iff {P A B : Type} (R : WordRules P A B) (X : Expander P A) (st : X.State)
    (o : TokenizerOptions) (g : Getters) (po : ParserOptions) (hR : FollowsGrammar R po) :
    (∀ values : ExtTreeMap (List Char) (List Char),
      (∀ key value : List Char, values[key]? = some value → '\x00' ∉ key ∧ '\x00' ∉ value) →
      (ArrayReprints R X st o g ShellValue.associativeArrayFromLiterals (.associativeArray values) ↔
        ∀ key value : List Char, values[key]? = some value →
          ']' ∉ key ∧ Apart key ∧ Apart value)) ∧
    (∀ values : ExtTreeMap Nat (List Char),
      (∀ (key : Nat) (value : List Char), values[key]? = some value →
        key < 2 ^ 64 ∧ '\x00' ∉ value) →
      (ArrayReprints R X st o g (fun l => .ok (ShellValue.indexedArrayFromLiterals l))
          (.indexedArray values) ↔
        ∀ (key : Nat) (value : List Char), values[key]? = some value → Apart value)) ∧
    ∀ s : List Char, '\x00' ∉ s → (TextReprints R X st o g s ↔ Apart s) :=
  ⟨reprints_associative_iff hR, reprints_indexed_iff, fun _ => reprints_string_iff⟩

section Fixture

def noGetterValues : Getters := ⟨fun _ => .unset .untyped, unset_ne_dynamic⟩

theorem getElem?_single {α : Type} {cmp : α → α → Ordering} [TransCmp cmp] [LawfulEqCmp cmp]
    {k key : α} {v value : List Char}
    (h : ((∅ : ExtTreeMap α (List Char) cmp).insert k v)[key]? = some value) :
    key = k ∧ value = v := by
  rw [ExtTreeMap.getElem?_insert] at h
  split_ifs at h with hcmp
  · exact ⟨(LawfulEqCmp.compare_eq_iff_eq.1 hcmp).symm, (Option.some.inj h).symm⟩
  · rw [ExtTreeMap.getElem?_empty] at h
    cases h

theorem followsGrammar_none : FollowsGrammar noWordRules .default := fun _ _ _ _ => rfl

/-- A key of a quote and a blank, an element behind a gap, and a text with a quote. -/
theorem reprints_quotes :
    ArrayReprints noWordRules (oneParameter " " "") () defaultOptions noGetterValues
      ShellValue.associativeArrayFromLiterals
      (.associativeArray ((∅ : ExtTreeMap (List Char) (List Char)).insert ['"', ' '] [']'])) ∧
    ArrayReprints noWordRules (oneParameter " " "") () defaultOptions noGetterValues
      (fun l => .ok (ShellValue.indexedArrayFromLiterals l))
      (.indexedArray ((∅ : ExtTreeMap Nat (List Char)).insert 7 ['='])) ∧
    TextReprints noWordRules (oneParameter " " "") () defaultOptions noGetterValues
      "it's".toList := by
  obtain ⟨hassociative, hindexed, htext⟩ := reprints_iff noWordRules (oneParameter " " "") ()
    defaultOptions noGetterValues .default followsGrammar_none
  refine ⟨(hassociative _ fun key value h => ?_).2 fun key value h => ?_,
    (hindexed _ fun key value h => ?_).2 fun key value h => ?_,
    (htext _ (by decide)).2 (apart_of_noControl rfl)⟩
  · obtain ⟨rfl, rfl⟩ := getElem?_single h
    exact ⟨by decide, by decide⟩
  · obtain ⟨rfl, rfl⟩ := getElem?_single h
    exact ⟨by decide, apart_of_noControl rfl, apart_of_noControl rfl⟩
  · obtain ⟨rfl, rfl⟩ := getElem?_single h
    exact ⟨by decide, by decide⟩
  · obtain ⟨rfl, rfl⟩ := getElem?_single h
    exact apart_of_noControl rfl

/-- A key with a closing bracket ends at it, and a digit behind an octal escape is read with it. -/
theorem not_reprints :
    ¬ ArrayReprints noWordRules (oneParameter " " "") () defaultOptions noGetterValues
      ShellValue.associativeArrayFromLiterals
      (.associativeArray ((∅ : ExtTreeMap (List Char) (List Char)).insert ['a', ']', 'b'] ['v'])) ∧
    ¬ ArrayReprints noWordRules (oneParameter " " "") () defaultOptions noGetterValues
      (fun l => .ok (ShellValue.indexedArrayFromLiterals l))
      (.indexedArray ((∅ : ExtTreeMap Nat (List Char)).insert 0 ['\x01', '2'])) ∧
    ¬ TextReprints noWordRules (oneParameter " " "") () defaultOptions noGetterValues
      ['\x01', '2'] := by
  have hapart : ¬ Apart ['\x01', '2'] := fun h => absurd (h [] '\x01' '2' [] rfl rfl) (by decide)
  refine ⟨fun h => ?_, fun h => ?_, fun h => hapart ((reprints_string_iff (by decide)).1 h)⟩
  · have hwell := (reprints_associative_iff followsGrammar_none _ fun key value hvalue => by
      obtain ⟨rfl, rfl⟩ := getElem?_single hvalue
      exact ⟨by decide, by decide⟩).1 h _ _ ExtTreeMap.getElem?_insert_self
    exact absurd hwell.1 (by decide)
  · exact hapart ((reprints_indexed_iff _ fun key value hvalue => by
      obtain ⟨rfl, rfl⟩ := getElem?_single hvalue
      exact ⟨by decide, by decide⟩).1 h _ _ ExtTreeMap.getElem?_insert_self)

end Fixture

end Seahaven.Shell
