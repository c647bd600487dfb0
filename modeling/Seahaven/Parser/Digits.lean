import Seahaven.Parser.WordGrammar

/-!
# Digit strings in words

Three rules of the grammar of words convert the digits that they have matched. Two of them unwrap
the result, so that a number too large for its type panics, also where the alternative that reads it
would have been given up.

1. `digits_of_met`: what is converted are the digits of the text.
2. `WordEntry`: the entry points, and what they apply.
3. `entry_returns_iff`: an entry point returns exactly if no number is too large.
-/

namespace Seahaven.Parser

open Grammar Grammar.Exp

/-! ## What is converted -/

def IsDigits (d : List Char) : Prop := d ≠ [] ∧ ∀ c ∈ d, c.isDigit = true

theorem plain_stop (stop : StopCondition) : stop.exp.plain = true := by
  induction stop with
  | openBraceOr stop ih => exact ih
  | openParenOr stop ih =>
    rw [StopCondition.exp, Exp.plain, ih]
    rfl
  | _ => rfl

def WordRule.converts : WordRule → Bool
  | number | tildeExpression | positionalParameter | unbracedPositionalParameter => true
  | _ => false

theorem plain_of_not_converts (o : ParserOptions) {n : WordRule} (h : n.converts = false) :
    (wordBody o n).plain = true := by
  cases n with
  | number => cases h
  | tildeExpression => cases h
  | positionalParameter => cases h
  | unbracedPositionalParameter => cases h
  | nonBraceExprText stop =>
    simp only [wordBody, alts, seqs, Exp.plain, plain_stop]
    rfl
  | unquotedLiteralTextPiece stop inCommand =>
    simp only [wordBody, alts, seqs, Exp.plain, plain_stop]
    rfl
  | heredocWordPieceWithSource stop =>
    simp only [wordBody, seqs, Exp.plain, plain_stop]
    rfl
  | _ => rfl

variable {o : ParserOptions} {k : Nat} {i : Input} {x : Conversion × List Char}

variable {n : Nat} {a : WordExp}

theorem mem_own_convert {f : Conversion} (ha : a.plain = true)
    (h : x ∈ own (wordGrammar o) n (.convert f a) i) :
    ∃ m j, n = m + 1 ∧ run (wordGrammar o).unlimited m a i = .matched j ∧ x = (f, i.taken j) := by
  cases n with
  | zero => exact absurd h List.not_mem_nil
  | succ m =>
    rw [own, own_plain ha, List.nil_append, mem_onto] at h
    obtain ⟨j, hj, h⟩ := h
    exact ⟨m, j, rfl, hj, List.mem_singleton.1 h⟩

variable {b : WordExp}

theorem mem_own_seq (ha : a.plain = true)
    (h : x ∈ own (wordGrammar o) n (.seq a b) i) :
    ∃ m j, n = m + 1 ∧ run (wordGrammar o).unlimited m a i = .matched j ∧
      x ∈ own (wordGrammar o) m b j := by
  cases n with
  | zero => exact absurd h List.not_mem_nil
  | succ m =>
    rw [own, own_plain ha, List.nil_append, mem_onto] at h
    obtain ⟨j, hj, h⟩ := h
    exact ⟨m, j, rfl, hj, h⟩

theorem isDigits_number (h : x ∈ own (wordGrammar o) k (wordBody o .number) i) :
    x.1 = .i64 ∧ IsDigits x.2 := by
  obtain ⟨m, j, -, -, h⟩ := mem_own_seq rfl h
  obtain ⟨l, j', -, hrun, rfl⟩ := mem_own_convert rfl h
  cases l with
  | zero => cases hrun
  | succ l =>
    obtain ⟨i', hfirst, hrest⟩ := run_seq hrun
    obtain ⟨c, hc, hdigit⟩ := run_one hfirst
    obtain ⟨t, ht, hall, -⟩ := run_star_one hrest
    refine ⟨rfl, ?_⟩
    dsimp only
    rw [taken_eq (t := c :: t) (by rw [hc, ht, List.cons_append])]
    exact ⟨List.cons_ne_nil c t, List.forall_mem_cons.2 ⟨hdigit, hall⟩⟩

theorem mem_own_alt (h : x ∈ own (wordGrammar o) n (.alt a b) i) :
    ∃ m, n = m + 1 ∧ (x ∈ own (wordGrammar o) m a i ∨
      run (wordGrammar o).unlimited m a i = .fails ∧ x ∈ own (wordGrammar o) m b i) := by
  cases n with
  | zero => exact absurd h List.not_mem_nil
  | succ m =>
    rw [own, List.mem_append] at h
    refine ⟨m, rfl, h.imp_right fun h => ?_⟩
    split_ifs at h with hfails
    · exact ⟨hfails, h⟩
    · exact absurd h List.not_mem_nil

theorem mem_own_alt_plain (ha : a.plain = true)
    (h : x ∈ own (wordGrammar o) n (.alt a b) i) :
    ∃ m, n = m + 1 ∧ run (wordGrammar o).unlimited m a i = .fails ∧
      x ∈ own (wordGrammar o) m b i := by
  obtain ⟨m, hm, h | h⟩ := mem_own_alt h
  · rw [own_plain ha] at h
    exact absurd h List.not_mem_nil
  · exact ⟨m, hm, h⟩

def terminator : WordExp := look (call .tildeTerminator)

theorem isDigits_tilde
    (h : x ∈ own (wordGrammar o) n (convert .usize (seq (star digit) terminator)) i) :
    x.1 = .usize ∧ (IsDigits x.2 ∨
      ∃ m j, run (wordGrammar o).unlimited m terminator i = .matched j) := by
  obtain ⟨l, j, -, hrun, rfl⟩ := mem_own_convert rfl h
  refine ⟨rfl, ?_⟩
  cases l with
  | zero => cases hrun
  | succ l =>
    obtain ⟨i', hdigits, hterminator⟩ := run_seq hrun
    obtain ⟨t, ht, hall, hnil⟩ := run_star_one hdigits
    have hj : i' = j := by
      cases l with
      | zero => cases hterminator
      | succ l => exact (run_look hterminator).1
    rw [hj] at ht
    dsimp only
    rw [taken_eq ht]
    by_cases hempty : t = []
    · rw [← hnil hempty] at hterminator
      exact .inr ⟨l, j, hterminator⟩
    · exact .inl ⟨hempty, hall⟩

theorem isDigits_tildeExpression (h : x ∈ own (wordGrammar o) k (wordBody o .tildeExpression) i) :
    x.1 = .usize ∧ IsDigits x.2 := by
  -- the alternatives without a number come before those with one
  obtain ⟨m₁, -, hhome, h⟩ := mem_own_alt_plain (a := terminator) rfl h
  obtain ⟨m₂, -, hplus, h⟩ := mem_own_alt_plain (a := seq (oneOf ['+']) terminator) rfl h
  obtain ⟨m₃, -, h | ⟨-, h⟩⟩ := mem_own_alt h
  · obtain ⟨m, j, -, hopt, h⟩ := mem_own_seq rfl h
    obtain ⟨hf, hdigits | ⟨l, j', hnext⟩⟩ := isDigits_tilde h
    · exact ⟨hf, hdigits⟩
    · exfalso
      cases m with
      | zero => cases hopt
      | succ m =>
        rw [opt, run] at hopt
        split at hopt
        · cases m with
          | zero => cases hopt
          | succ m =>
            cases hopt
            exact not_fails_of_matched hnext hhome
        · obtain ⟨l', hseq⟩ := run_seq_of hopt hnext
          exact not_fails_of_matched hseq hplus
  · obtain ⟨m₄, -, hminus, h⟩ := mem_own_alt_plain (a := seq (oneOf ['-']) terminator) rfl h
    obtain ⟨m₅, -, h | ⟨-, h⟩⟩ := mem_own_alt h
    · obtain ⟨m, j, -, hone, h⟩ := mem_own_seq rfl h
      obtain ⟨hf, hdigits | ⟨l, j', hnext⟩⟩ := isDigits_tilde h
      · exact ⟨hf, hdigits⟩
      · obtain ⟨l', hseq⟩ := run_seq_of hone hnext
        exact absurd hminus (not_fails_of_matched hseq)
    · rw [own_plain rfl] at h
      exact absurd h List.not_mem_nil

theorem digits_of_met {e : WordExp} (he : e.plain = true)
    (h : x ∈ met (wordGrammar o) n e i) :
    x.1 = .u32 ∨ IsDigits x.2 ∧ x.2 <:+: i.rest := by
  have hG := (wellFormed_wordGrammar o).nullable
  rcases metIn_of_mem hG h with h | ⟨m, l, j, h, hsuffix⟩
  · rw [own_plain he] at h
    exact absurd h List.not_mem_nil
  · have hinfix := (infix_of_mem_own hG h).trans hsuffix.isInfix
    cases hm : m.converts with
    | false =>
      have hown : own (wordGrammar o) l ((wordGrammar o).body m) j = [] :=
        own_plain (plain_of_not_converts o hm)
      rw [hown] at h
      exact absurd h List.not_mem_nil
    | true =>
      cases m with
      | number => exact .inr ⟨(isDigits_number h).2, hinfix⟩
      | tildeExpression => exact .inr ⟨(isDigits_tildeExpression h).2, hinfix⟩
      | positionalParameter =>
        obtain ⟨-, -, -, -, rfl⟩ := mem_own_convert rfl h
        exact .inl rfl
      | unbracedPositionalParameter =>
        obtain ⟨-, -, -, -, rfl⟩ := mem_own_convert rfl h
        exact .inl rfl
      | _ => cases hm

/-! ## Numbers in range -/

/-- The number is in the range of the type that it is converted to. A positional parameter out of
range is no panic. -/
def InRange (x : Conversion × List Char) : Prop :=
  match x.1 with
  | .i64 => numberOf x.2 < 2 ^ 63
  | .usize => numberOf x.2 < 2 ^ 64
  | .u32 => True

theorem parseBelow_isSome {bound : Nat} {d : List Char} (hd : d ≠ []) :
    (parseBelow bound d).isSome = decide (numberOf d < bound) := by
  unfold parseBelow
  simp only [hd, ne_eq, not_false_iff, true_and]
  split_ifs with h
  · exact (decide_eq_true h).symm
  · exact (decide_eq_false h).symm

theorem panics_iff (x : Conversion × List Char) (hx : x.1 = .u32 ∨ IsDigits x.2) :
    x.1.verdict x.2 = .panic ↔ ¬ InRange x := by
  obtain ⟨f, d⟩ := x
  cases f with
  | i64 =>
    have hd : d ≠ [] := (hx.resolve_left nofun).1
    simp only [Conversion.verdict, InRange, parseBelow_isSome hd, decide_eq_true_eq]
    split_ifs with h
    · exact iff_of_false nofun (not_not.2 h)
    · exact iff_of_true rfl h
  | usize =>
    have hd : d ≠ [] := (hx.resolve_left nofun).1
    simp only [Conversion.verdict, InRange, parseBelow_isSome hd, decide_eq_true_eq]
    split_ifs with h
    · exact iff_of_false nofun (not_not.2 h)
    · exact iff_of_true rfl h
  | u32 =>
    refine iff_of_false ?_ (not_not.2 trivial)
    simp only [Conversion.verdict]
    split_ifs <;> nofun

theorem numberOf_lt {d : List Char} (hd : ∀ c ∈ d, c.isDigit = true) :
    numberOf d < 10 ^ d.length := by
  suffices H : ∀ (d : List Char) (n b : Nat), (∀ c ∈ d, c.isDigit = true) → n < b →
      d.foldl (fun n c => n * 10 + (c.toNat - '0'.toNat)) n < b * 10 ^ d.length by
    have := H d 0 1 hd Nat.one_pos
    rwa [Nat.one_mul] at this
  intro d
  induction d with
  | nil =>
    intro n b _ hn
    rw [List.foldl_nil, List.length_nil, Nat.pow_zero, Nat.mul_one]
    exact hn
  | cons c d ih =>
    intro n b hall hn
    have hc := hall c List.mem_cons_self
    have hrange : c.toNat ≤ '9'.toNat := by
      simp only [Char.isDigit, Bool.and_eq_true, decide_eq_true_eq] at hc
      exact hc.2
    have hnine : '9'.toNat = 57 := rfl
    have hzero : '0'.toNat = 48 := rfl
    have := ih (n * 10 + (c.toNat - '0'.toNat)) (b * 10)
      (fun c hc => hall c (List.mem_cons_of_mem _ hc)) (by omega)
    rw [List.foldl_cons, List.length_cons, Nat.pow_succ, Nat.mul_comm (10 ^ d.length),
      ← Nat.mul_assoc]
    exact this

/-! ## Entry points -/

/-- A rule that is applied to the whole of a text. -/
structure WordCall where
  options : ParserOptions
  rule : WordRule
  text : List Char

namespace WordCall

def exp (c : WordCall) : WordExp := seq (call c.rule) (absent any)

def Returns (c : WordCall) : Prop :=
  Grammar.Returns (wordGrammar c.options) c.exp (Input.start c.text)

def Accepts (c : WordCall) : Prop :=
  ∃ n j, run (wordGrammar c.options) n c.exp (Input.start c.text) = .matched j

def Fits (c : WordCall) : Prop :=
  ∀ n, ∀ x ∈ met (wordGrammar c.options) n c.exp (Input.start c.text), InRange x

def ShortRuns (c : WordCall) : Prop := ∀ d, d <:+: c.text → IsDigits d → d.length ≤ 18

theorem returns_iff (c : WordCall) : c.Returns ↔ c.Fits := by
  have hfine : c.exp.fine WordRule.mayBeEmpty WordRule.rank 10 10 = true := by
    simp only [exp, Exp.fine, Bool.and_eq_true, decide_eq_true_eq]
    exact ⟨(wellFormed_wordGrammar c.options).lt c.rule, rfl⟩
  refine (Grammar.returns_iff (wellFormed_wordGrammar c.options) hfine _).trans ?_
  refine forall_congr' fun n => ?_
  rw [Rules.Breaks, not_exists]
  refine forall_congr' fun x => ?_
  rw [not_and]
  refine forall_congr' fun hx => ?_
  have hdigits := (digits_of_met (e := c.exp) rfl hx).imp_right And.left
  exact (not_congr (panics_iff x hdigits)).trans not_not

theorem fits_of_shortRuns {c : WordCall} (h : c.ShortRuns) : c.Fits := by
  intro n x hx
  rcases digits_of_met (e := c.exp) rfl hx with hu32 | ⟨hdigits, hinfix⟩
  · unfold InRange
    rw [hu32]
    trivial
  · have hlength := h x.2 hinfix hdigits
    have hlt : numberOf x.2 < 10 ^ 18 :=
      (numberOf_lt hdigits.2).trans_le (Nat.pow_le_pow_right (by decide) hlength)
    unfold InRange
    split
    · exact hlt.trans (by decide)
    · exact hlt.trans (by decide)
    · trivial

end WordCall

/-- An entry point of the grammar, with what it is called on. -/
inductive WordEntry
  | parse (word : List Char) (options : ParserOptions)
  | parseHeredoc (word : List Char) (options : ParserOptions)
  | parseParameter (word : List Char) (options : ParserOptions)
  | parseBraceExpansions (word : List Char) (options : ParserOptions)
  | parseAssignmentWord (word : List Char)
  | parseArrayAssignment (word : List Char) (elements : List (List Char))

namespace WordEntry

/-- The rules that an entry point applies, one after another as long as they accept. -/
def calls : WordEntry → List WordCall
  | parse word options => [⟨options, .unexpandedWord, word⟩]
  | parseHeredoc word options => [⟨options, .unexpandedHeredocWord, word⟩]
  | parseParameter word options => [⟨options, .parameter, word⟩]
  | parseBraceExpansions word options => [⟨options, .braceExpansions, word⟩]
  | parseAssignmentWord word => [⟨.default, .nameEqualsScalarValue, word⟩]
  | parseArrayAssignment word elements =>
    ⟨.default, .nameEquals, word⟩ :: elements.map fun e => ⟨.default, .literalArrayElement, e⟩

def Along (P : WordCall → Prop) : List WordCall → Prop
  | [] => True
  | c :: cs => P c ∧ (c.Accepts → Along P cs)

theorem along_congr {P Q : WordCall → Prop} (h : ∀ c, P c ↔ Q c) (cs : List WordCall) :
    Along P cs ↔ Along Q cs := by
  induction cs with
  | nil => exact Iff.rfl
  | cons c cs ih => exact and_congr (h c) (imp_congr_right fun _ => ih)

theorem along_of_forall {P : WordCall → Prop} {cs : List WordCall} (h : ∀ c ∈ cs, P c) :
    Along P cs := by
  induction cs with
  | nil => trivial
  | cons c cs ih =>
    exact ⟨h c List.mem_cons_self, fun _ => ih fun c hc => h c (List.mem_cons_of_mem _ hc)⟩

def Returns (e : WordEntry) : Prop := Along WordCall.Returns e.calls

def Fits (e : WordEntry) : Prop := Along WordCall.Fits e.calls

/-- **Digit strings.** An entry point returns exactly if every number that the grammar comes to, in
whatever alternative, is in range. So it does where no more than 18 digits are in a row. -/
theorem entry_returns_iff (e : WordEntry) :
    (e.Returns ↔ e.Fits) ∧ ((∀ c ∈ e.calls, c.ShortRuns) → e.Returns) := by
  have hiff : e.Returns ↔ e.Fits := along_congr WordCall.returns_iff e.calls
  exact ⟨hiff, fun h => hiff.2 (along_of_forall fun c hc => WordCall.fits_of_shortRuns (h c hc))⟩

/-- The expansion of `{1..99999999999999999999}` panics. -/
theorem not_returns_brace : ¬ (parseBraceExpansions
      ('\x7b' :: '1' :: '.' :: '.' :: (List.replicate 20 '9' ++ ['\x7d'])) .default).Returns := by
  rintro ⟨⟨n, hends, hpanics⟩, -⟩
  have hrun : run (wordGrammar .default) 200
      (WordCall.exp ⟨.default, .braceExpansions,
        '\x7b' :: '1' :: '.' :: '.' :: (List.replicate 20 '9' ++ ['\x7d'])⟩)
      (Input.start ('\x7b' :: '1' :: '.' :: '.' :: (List.replicate 20 '9' ++ ['\x7d']))) =
        .panics := by decide +kernel
  exact hpanics ((run_unique hends (by rw [hrun]; nofun)).trans hrun)

end WordEntry

end Seahaven.Parser
