import Seahaven.Shell.AnsiQuote

/-!
# Where expansion is total

The number of an escape sequence is read into an unsigned type, and a number that does not fit
aborts the expansion.

1. `Reaches`: what is left of a text when the expansion gets to an escape sequence.
2. `numberOf_lt_pow`: so many digits fit; only octal and braced sequences can be too large.
3. `expands`: without such sequences every text expands, and a text without backslashes to itself,
   up to its first NUL in ANSI-C quotes.
-/

namespace Seahaven.Shell

/-! ## Reached sequences -/

/-- What is left of a text after its first character or escape sequence. -/
def afterFirst (mode : EscapeExpansionMode) : List Char → Option (List Char)
  | [] => none
  | c :: s =>
    if c = '\\' then
      match s with
      | [] => none
      | cmd :: s =>
        match escape mode cmd s with
        | .ok (.bytes _ rest) => some rest
        | _ => none
    else some s

/-- The expansion of `s` gets to where `t` is left. -/
inductive Reaches (mode : EscapeExpansionMode) (s : List Char) : List Char → Prop
  | start : Reaches mode s s
  | step {t t' : List Char} : Reaches mode s t → afterFirst mode t = some t' → Reaches mode s t'

variable {mode : EscapeExpansionMode} {s : List Char}

theorem Reaches.head {s' t : List Char}
    (h : afterFirst mode s = some s') (hr : Reaches mode s' t) : Reaches mode s t := by
  induction hr with
  | start => exact .step .start h
  | step _ ht ih => exact .step ih ht

def startsOctal (mode : EscapeExpansionMode) (cmd : Char) : Prop :=
  cmd = '0' ∨ mode = .ansiCQuotes ∧ isOctalDigit cmd = true

def moreOctal : EscapeExpansionMode → Nat
  | .echoBuiltin => 3
  | .ansiCQuotes => 2

/-- A sequence whose number is too large, or that takes a digit too many. -/
inductive Overlong (mode : EscapeExpansionMode) : Char → List Char → Prop
  /-- An octal number above a byte. -/
  | octal {cmd : Char} {s : List Char} : startsOctal mode cmd →
      2 ^ 8 ≤ numberOf 8 (cmd :: (takeDigits isOctalDigit (moreOctal mode) s).1) →
        Overlong mode cmd s
  /-- In ANSI-C quotes, three digits after a zero. -/
  | fourth {s : List Char} : mode = .ansiCQuotes →
      (takeDigits isOctalDigit 3 s).1.length = 3 → Overlong mode '0' s
  /-- More hexadecimal digits than a word has room for. -/
  | hex {s : List Char} :
      2 ^ 32 ≤ numberOf 16 (takeHexits mode ⟨[], false, []⟩ false s).digits → Overlong mode 'x' s

/-! ## Digits -/

theorem numberOf_append (radix : Nat) (a b : List Char) :
    numberOf radix (a ++ b) = numberOf radix a * radix ^ b.length + numberOf radix b := by
  have hfoldl : ∀ (n : Nat) (b : List Char),
      b.foldl (fun n c => n * radix + digitValue c) n = n * radix ^ b.length + numberOf radix b := by
    intro n b
    induction b generalizing n with
    | nil => simp [numberOf]
    | cons c b ih =>
      rw [numberOf, List.foldl_cons, List.foldl_cons, ih, ih, List.length_cons, Nat.zero_mul,
        Nat.zero_add, Nat.add_mul, Nat.pow_succ', Nat.mul_assoc, Nat.add_assoc]
  rw [numberOf, List.foldl_append, hfoldl]
  rfl

theorem numberOf_lt_pow {radix : Nat} {digits : List Char}
    (h : ∀ c ∈ digits, digitValue c < radix) : numberOf radix digits < radix ^ digits.length := by
  induction digits with
  | nil => simp [numberOf]
  | cons c digits ih =>
    obtain ⟨hc, hrest⟩ := List.forall_mem_cons.1 h
    have hone : numberOf radix [c] = digitValue c := by simp [numberOf]
    have hlt := ih hrest
    rw [← List.singleton_append, numberOf_append, hone, List.length_append, List.length_singleton,
      Nat.pow_add, Nat.pow_one]
    calc digitValue c * radix ^ digits.length + numberOf radix digits
        < digitValue c * radix ^ digits.length + radix ^ digits.length := by omega
      _ = (digitValue c + 1) * radix ^ digits.length := by rw [Nat.add_mul, Nat.one_mul]
      _ ≤ radix * radix ^ digits.length := Nat.mul_le_mul_right _ hc

theorem takeDigits_spec (p : Char → Bool) (n : Nat) (s : List Char) :
    s = (takeDigits p n s).1 ++ (takeDigits p n s).2 ∧ (takeDigits p n s).1.length ≤ n ∧
      ∀ c ∈ (takeDigits p n s).1, p c = true := by
  induction n generalizing s with
  | zero => exact ⟨rfl, Nat.le_refl _, by simp [takeDigits]⟩
  | succ n ih =>
    cases s with
    | nil => exact ⟨rfl, Nat.zero_le _, by simp [takeDigits]⟩
    | cons c s =>
      obtain ⟨hsplit, hlen, hall⟩ := ih s
      rw [takeDigits]
      split_ifs with hc
      · exact ⟨congrArg (c :: ·) hsplit, Nat.succ_le_succ hlen, List.forall_mem_cons.2 ⟨hc, hall⟩⟩
      · exact ⟨rfl, Nat.zero_le _, by simp⟩

theorem digitValue_hex {c : Char} (h : isHexDigit c = true) : digitValue c < 16 := by
  unfold isHexDigit at h
  unfold digitValue
  simp only [Bool.or_eq_true, Bool.and_eq_true, decide_eq_true_eq] at h
  split_ifs with h₁ h₂
  · unfold Char.isDigit at h₁
    rw [Bool.and_eq_true, decide_eq_true_eq, decide_eq_true_eq] at h₁
    have : c.toNat ≤ '9'.toNat := h₁.2
    change c.toNat - 48 < 16
    change c.toNat ≤ 57 at this
    omega
  · have : c.toNat ≤ 'f'.toNat := h₂.2
    change c.toNat - 97 + 10 < 16
    change c.toNat ≤ 102 at this
    omega
  · rcases h with (h | h) | h
    · exact absurd h h₁
    · exact absurd h h₂
    · have : c.toNat ≤ 'F'.toNat := h.2
      change c.toNat - 65 + 10 < 16
      change c.toNat ≤ 70 at this
      omega

theorem parseUnsigned_ok {bits radix : Nat} {digits : List Char}
    (h : numberOf radix digits < 2 ^ bits) :
    parseUnsigned bits radix digits = .ok (numberOf radix digits) := if_pos h

theorem parseUnsigned_hex {n : Nat} (s : List Char) :
    parseUnsigned (4 * n) 16 (takeDigits isHexDigit n s).1 =
      .ok (numberOf 16 (takeDigits isHexDigit n s).1) := by
  obtain ⟨-, hlen, hall⟩ := takeDigits_spec isHexDigit n s
  refine parseUnsigned_ok ((numberOf_lt_pow fun c hc => digitValue_hex (hall c hc)).trans_le ?_)
  rw [Nat.pow_mul]
  exact Nat.pow_le_pow_right (by decide) hlen

/-! ## One sequence -/

theorem unicodeEscape_ok (cmd : Char) (n : Nat) (s : List Char) :
    ∃ b rest, unicodeEscape cmd n (4 * n) s = .ok (.bytes b rest) := by
  have hparse := parseUnsigned_hex (n := n) s
  unfold unicodeEscape
  split
  · exact ⟨_, _, rfl⟩
  · rename_i hex rest _ hdigits
    rw [hdigits] at hparse
    rw [hparse]
    exact ⟨_, _, rfl⟩

/-- What a sequence comes to that reads an octal number: three digits at most, one byte. -/
structure ReadsOctal (mode : EscapeExpansionMode) (cmd : Char) (s : List Char) : Prop where
  read : ∃ digits rest, s = digits ++ rest ∧ digits.length ≤ moreOctal mode ∧
    (∀ c ∈ digits, isOctalDigit c = true) ∧
      escape mode cmd s = .ok (.bytes [UInt8.ofNat (numberOf 8 (cmd :: digits))] rest)

theorem numberOf_zero_cons (digits : List Char) :
    numberOf 8 ('0' :: digits) = numberOf 8 digits := rfl

theorem readsOctal_zero (h : ¬ Overlong mode '0' s) : ReadsOctal mode '0' s := by
  obtain ⟨hsplit, hlen, hall⟩ := takeDigits_spec isOctalDigit 3 s
  have hmore : (takeDigits isOctalDigit 3 s).1.length ≤ moreOctal mode := by
    cases mode with
    | echoBuiltin => exact hlen
    | ansiCQuotes =>
      have hne : (takeDigits isOctalDigit 3 s).1.length ≠ 3 := fun he => h (.fourth rfl he)
      exact Nat.le_of_lt_succ (Nat.lt_of_le_of_ne hlen hne)
  have hfits : numberOf 8 (takeDigits isOctalDigit 3 s).1 < 2 ^ 8 := by
    cases mode with
    | echoBuiltin =>
      by_contra hbig
      exact h (.octal (.inl rfl) (Nat.le_of_not_lt hbig))
    | ansiCQuotes =>
      refine (numberOf_lt_pow fun c hc => digitValue_lt (hall c hc)).trans_le ?_
      exact (Nat.pow_le_pow_right (by decide) hmore).trans (by decide)
  refine ⟨_, _, hsplit, hmore, hall, ?_⟩
  have hescape : escape mode '0' s = (parseUnsigned 8 8 (takeDigits isOctalDigit 3 s).1).map
      fun n => .bytes [UInt8.ofNat n] (takeDigits isOctalDigit 3 s).2 := by
    cases mode <;> rfl
  rw [hescape, parseUnsigned_ok hfits]
  rfl

variable {cmd : Char}

theorem escape_of_octal (h : isOctalDigit cmd = true) (hzero : cmd ≠ '0')
    (s : List Char) : escape .ansiCQuotes cmd s =
      (parseUnsigned 8 8 (cmd :: (takeDigits isOctalDigit 2 s).1)).map fun n =>
        .bytes [UInt8.ofNat n] (takeDigits isOctalDigit 2 s).2 := by
  have hletters : ∀ c, isOctalDigit c = false → cmd ≠ c := by
    rintro c hc rfl
    rw [hc] at h
    cases h
  unfold escape
  rw [if_neg (hletters 'a' rfl), if_neg (hletters 'b' rfl), if_neg (hletters 'c' rfl),
    if_neg (not_or.2 ⟨hletters 'e' rfl, hletters 'E' rfl⟩), if_neg (hletters 'f' rfl),
    if_neg (hletters 'n' rfl), if_neg (hletters 'r' rfl), if_neg (hletters 't' rfl),
    if_neg (hletters 'v' rfl), if_neg (hletters '\\' rfl),
    if_neg fun hq => hq.2.elim (hletters '\'' rfl) fun hq => hq.elim (hletters '"' rfl)
      (hletters '?' rfl), if_neg hzero, if_neg (hletters 'x' rfl), if_neg (hletters 'u' rfl),
    if_neg (hletters 'U' rfl), if_pos ⟨rfl, h⟩]

theorem readsOctal
    (hcmd : startsOctal mode cmd) (h : ¬ Overlong mode cmd s) : ReadsOctal mode cmd s := by
  by_cases hzero : cmd = '0'
  · subst hzero
    exact readsOctal_zero h
  obtain ⟨rfl, hoct⟩ := hcmd.resolve_left hzero
  obtain ⟨hsplit, hlen, hall⟩ := takeDigits_spec isOctalDigit 2 s
  have hfits : numberOf 8 (cmd :: (takeDigits isOctalDigit 2 s).1) < 2 ^ 8 := by
    by_contra hbig
    exact h (.octal hcmd (Nat.le_of_not_lt hbig))
  refine ⟨_, _, hsplit, hlen, hall, ?_⟩
  rw [escape_of_octal hoct hzero, parseUnsigned_ok hfits]
  rfl

/-- What a sequence of hexadecimal digits comes to, if it has any: one byte. -/
structure ReadsHex (mode : EscapeExpansionMode) (s : List Char) : Prop where
  read : (takeHexits mode ⟨[], false, []⟩ false s).digits ≠ [] → escape mode 'x' s =
    .ok (.bytes [UInt8.ofNat (numberOf 16 (takeHexits mode ⟨[], false, []⟩ false s).digits)]
      (takeHexits mode ⟨[], false, []⟩ false s).rest)

theorem escape_hex (mode : EscapeExpansionMode) (s : List Char) :
    escape mode 'x' s = if (takeHexits mode ⟨[], false, []⟩ false s).digits = [] then
        .ok (.bytes (if (takeHexits mode ⟨[], false, []⟩ false s).braced then [0]
          else unexpanded 'x') (takeHexits mode ⟨[], false, []⟩ false s).rest)
      else (parseUnsigned 32 16 (takeHexits mode ⟨[], false, []⟩ false s).digits).map fun n =>
        .bytes [UInt8.ofNat n] (takeHexits mode ⟨[], false, []⟩ false s).rest := by
  cases mode <;> rfl

theorem readsHex (h : ¬ Overlong mode 'x' s) :
    ReadsHex mode s := by
  have hfits : numberOf 16 (takeHexits mode ⟨[], false, []⟩ false s).digits < 2 ^ 32 := by
    by_contra hbig
    exact h (.hex (Nat.le_of_not_lt hbig))
  refine ⟨fun hne => ?_⟩
  rw [escape_hex, if_neg hne, parseUnsigned_ok hfits]
  rfl

theorem ok_ite {p : Prop} [Decidable p] {x y : Except ε α} (hx : p → ∃ a, x = .ok a)
    (hy : ¬ p → ∃ a, y = .ok a) : ∃ a, (if p then x else y) = .ok a := by
  split_ifs with h
  · exact hx h
  · exact hy h

/-- **One sequence.** One that is not too long is read. -/
theorem escape_ok (h : ¬ Overlong mode cmd s) : ∃ x, escape mode cmd s = .ok x := by
  by_cases hoct : startsOctal mode cmd
  · obtain ⟨digits, rest, -, -, -, he⟩ := (readsOctal hoct h).read
    exact ⟨_, he⟩
  by_cases hx : cmd = 'x'
  · subst hx
    by_cases hnil : (takeHexits mode ⟨[], false, []⟩ false s).digits = []
    · rw [escape_hex, if_pos hnil]
      exact ⟨_, rfl⟩
    · exact ⟨_, (readsHex h).read hnil⟩
  have hzero : cmd ≠ '0' := fun he => hoct (.inl he)
  have hno : ¬ (mode = .ansiCQuotes ∧ isOctalDigit cmd = true) := fun he => hoct (.inr he)
  unfold escape
  refine ok_ite (fun _ => ⟨_, rfl⟩) fun _ => ok_ite (fun _ => ⟨_, rfl⟩) fun _ => ok_ite ?_ fun _ =>
    ok_ite (fun _ => ⟨_, rfl⟩) fun _ => ok_ite (fun _ => ⟨_, rfl⟩) fun _ =>
    ok_ite (fun _ => ⟨_, rfl⟩) fun _ => ok_ite (fun _ => ⟨_, rfl⟩) fun _ =>
    ok_ite (fun _ => ⟨_, rfl⟩) fun _ => ok_ite (fun _ => ⟨_, rfl⟩) fun _ =>
    ok_ite (fun _ => ⟨_, rfl⟩) fun _ => ok_ite (fun _ => ⟨_, rfl⟩) fun _ =>
    ok_ite (fun he => absurd he hzero) fun _ => ok_ite (fun he => absurd he hx) fun _ =>
    ok_ite ?_ fun _ => ok_ite ?_ fun _ => ok_ite (fun he => absurd he hno) fun _ => ⟨_, rfl⟩
  · rintro -
    cases mode <;> exact ⟨_, rfl⟩
  · rintro -
    obtain ⟨b, rest, he⟩ := unicodeEscape_ok cmd 4 s
    exact ⟨_, he⟩
  · rintro -
    obtain ⟨b, rest, he⟩ := unicodeEscape_ok cmd 8 s
    exact ⟨_, he⟩

/-! ## Whole texts -/

def Measured (mode : EscapeExpansionMode) (s : List Char) : Prop :=
  ∀ cmd t, Reaches mode s ('\\' :: cmd :: t) → ¬ Overlong mode cmd t

theorem expandLoop_ok {mode : EscapeExpansionMode} {fuel : Nat} {s : List Char}
    (h : Measured mode s) : ∃ r, expandLoop mode fuel s = .ok r := by
  induction fuel generalizing s with
  | zero => exact ⟨_, rfl⟩
  | succ fuel ih =>
    cases s with
    | nil => exact ⟨_, rfl⟩
    | cons c s =>
      have hafter : ∀ {t}, afterFirst mode (c :: s) = some t →
          ∃ r, expandLoop mode fuel t = .ok r :=
        fun ht => ih fun cmd u hu => h cmd u (hu.head ht)
      unfold expandLoop
      split_ifs with hc
      · subst hc
        cases s with
        | nil => exact ⟨_, rfl⟩
        | cons cmd s =>
          obtain ⟨x, hx⟩ := escape_ok (h cmd s .start)
          dsimp only
          rw [hx]
          cases x with
          | stop => exact ⟨_, rfl⟩
          | bytes b rest =>
            have hrest : afterFirst mode ('\\' :: cmd :: s) = some rest := by
              unfold afterFirst
              dsimp only
              rw [if_pos rfl, hx]
            obtain ⟨r, hr⟩ := hafter hrest
            dsimp only
            rw [hr]
            exact ⟨_, rfl⟩
      · have hrest : afterFirst mode (c :: s) = some s := by
          unfold afterFirst
          dsimp only
          rw [if_neg hc]
        obtain ⟨r, hr⟩ := hafter hrest
        rw [hr]
        exact ⟨_, rfl⟩

theorem expandLoop_plain {fuel : Nat}
    (hs : '\\' ∉ s) (hf : s.length ≤ fuel) :
    expandLoop mode fuel s = .ok (s.flatMap String.utf8EncodeChar, true) := by
  induction s generalizing fuel with
  | nil => cases fuel <;> rfl
  | cons c s ih =>
    rw [List.mem_cons, not_or] at hs
    obtain ⟨fuel, rfl⟩ : ∃ n, fuel = n + 1 := ⟨fuel - 1, by simp at hf; omega⟩
    unfold expandLoop
    rw [if_neg (Ne.symm hs.1), ih hs.2 (by simpa using hf)]
    rfl

/-- How much of what was written is kept: in ANSI-C quotes, what comes before the first NUL. -/
def kept : EscapeExpansionMode → List UInt8 → List UInt8
  | .echoBuiltin, b => b
  | .ansiCQuotes, b => b.takeWhile (· ≠ 0)

/-- A text expands: it has a result, octal numbers have three digits at most, numbers become bytes,
and a text without backslashes comes to the bytes that `keep` keeps of it. -/
structure Expands (keep : List UInt8 → List UInt8) (mode : EscapeExpansionMode) (s : List Char) :
    Prop where
  total : ∃ r, expandBackslashEscapes s mode = .ok r
  octal : ∀ cmd t, Reaches mode s ('\\' :: cmd :: t) → startsOctal mode cmd →
    ReadsOctal mode cmd t
  hex : ∀ t, Reaches mode s ('\\' :: 'x' :: t) → ReadsHex mode t
  plain : '\\' ∉ s →
    expandBackslashEscapes s mode = .ok (keep (s.flatMap String.utf8EncodeChar), true)

theorem expand_plain (hs : '\\' ∉ s) :
    expandBackslashEscapes s mode = .ok (kept mode (s.flatMap String.utf8EncodeChar), true) := by
  unfold expandBackslashEscapes
  rw [expandLoop_plain hs (Nat.le_refl _)]
  cases mode <;> rfl

/-- **Texts without overlong sequences expand**; without backslashes, to themselves, in ANSI-C quotes
up to the first NUL. -/
theorem expands {mode : EscapeExpansionMode} {s : List Char} (h : Measured mode s) :
    Expands (kept mode) mode s where
  total := by
    obtain ⟨r, hr⟩ := @expandLoop_ok _ s.length _ h
    unfold expandBackslashEscapes
    rw [hr]
    exact ⟨_, rfl⟩
  octal cmd t ht hcmd := readsOctal hcmd (h cmd t ht)
  hex t ht := readsHex (h 'x' t ht)
  plain := expand_plain

/-- One octal number, of one digit. -/
theorem bell_expands : Expands (kept .ansiCQuotes) .ansiCQuotes ['\\', '7', '!'] := by
  refine expands fun cmd t ht hlong => ?_
  have hreached : ∀ {u}, Reaches .ansiCQuotes ['\\', '7', '!'] u →
      u = ['\\', '7', '!'] ∨ u = ['!'] ∨ u = [] := by
    intro u hu
    induction hu with
    | start => exact .inl rfl
    | step _ hnext ih =>
      rcases ih with rfl | rfl | rfl
      · exact .inr (.inl (Option.some.inj hnext).symm)
      · exact .inr (.inr (Option.some.inj hnext).symm)
      · cases hnext
  rcases hreached ht with he | he | he
  · obtain ⟨rfl, rfl⟩ : cmd = '7' ∧ t = ['!'] := by simpa using he
    cases hlong with
    | octal _ hbig => exact absurd hbig (by decide)
  · cases he
  · cases he

/-- A NUL between ANSI-C quotes ends the text although no backslash is in it. -/
theorem nul_not_expands : ¬ Expands id .ansiCQuotes ['a', '\x00', 'b'] := by
  intro h
  have := h.plain (by decide)
  exact absurd this (by decide)

end Seahaven.Shell
