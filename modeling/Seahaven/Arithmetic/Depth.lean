import Mathlib.Data.List.TakeDrop
import Seahaven.Arithmetic.Grammar

/-!
# The depth of an expression

What is inside an alternative is read from what is left of the input, so that an expression is never
deeper than the input is long.

1. `Same`: a rule does the same over two rules for what is inside it, and takes something off.
2. `same_prefixAtom`, `same_climb`: so do the alternatives, over rules that do the same on what is
   shorter than the input.
3. `infixParse_depth`: any depth beyond the length of the input is enough.
-/

namespace Seahaven.Arithmetic

/-! ## What the rules take off -/

theorem length_blanks_le (s : List Char) : (blanks s).length ≤ s.length :=
  (List.dropWhile_sublist _).length_le

theorem length_expect {text s t : List Char} (h : expect text s = some t) :
    s.length = text.length + t.length := by
  induction text generalizing s with
  | nil =>
    cases h
    exact (Nat.zero_add _).symm
  | cons c text ih =>
    cases s with
    | nil => cases h
    | cons d s =>
      rw [expect] at h
      split_ifs at h
      have hlength := ih h
      rw [List.length_cons, List.length_cons]
      omega

theorem shortens_variableName : Peg.Shortens variableName := by
  intro s name t h
  cases s with
  | nil => cases h
  | cons c s =>
    rw [variableName] at h
    split_ifs at h
    rw [List.span_eq_takeWhile_dropWhile] at h
    cases h
    exact Nat.lt_succ_of_le (List.dropWhile_sublist _).length_le

theorem span_length_le (p : Char → Bool) (s : List Char) : (s.span p).2.length ≤ s.length := by
  rw [List.span_eq_takeWhile_dropWhile]
  exact (List.dropWhile_sublist _).length_le

theorem shortens_decimalLiteral : Peg.Shortens decimalLiteral := by
  intro s v t h
  cases s with
  | nil => cases h
  | cons c s =>
    rw [decimalLiteral] at h
    split_ifs at h
    obtain ⟨n, -, hn⟩ := Option.map_eq_some_iff.1 h
    cases hn
    exact Nat.lt_succ_of_le (span_length_le _ s)

theorem shortens_literalNumber : Peg.Shortens literalNumber := by
  have hbase : Peg.Shortens baseLiteral := by
    intro s v t h
    unfold baseLiteral at h
    split at h
    · next radix u hradix =>
      have hu := shortens_decimalLiteral _ _ _ hradix
      have hspan := span_length_le isBaseDigit u
      split at h
      · cases h
      · next digits rest hdigits =>
        rw [hdigits] at hspan
        obtain ⟨n, -, hn⟩ := Option.map_eq_some_iff.1 h
        cases hn
        rw [List.length_cons] at hu
        exact Nat.lt_of_le_of_lt hspan (by omega)
    · cases h
  have hhex : Peg.Shortens hexLiteral := by
    intro s v t h
    unfold hexLiteral at h
    split at h
    · next x s =>
      split_ifs at h
      obtain ⟨n, -, hn⟩ := Option.map_eq_some_iff.1 h
      cases hn
      have hspan := span_length_le isHexDigit s
      rw [List.length_cons, List.length_cons]
      exact Nat.lt_of_le_of_lt hspan (by omega)
    · cases h
  have hoctal : Peg.Shortens octalLiteral := by
    intro s v t h
    unfold octalLiteral at h
    split at h
    · next s =>
      obtain ⟨n, -, hn⟩ := Option.map_eq_some_iff.1 h
      cases hn
      exact Nat.lt_succ_of_le (span_length_le isOctalDigit s)
    · cases h
  exact hbase.or (hhex.or (hoctal.or shortens_decimalLiteral))

/-! ## The alternatives -/

/-- Two answers to an input of this length are one, and it leaves less. -/
structure Same {β : Type} (n : Nat) (x y : Option (β × List Char)) : Prop where
  eq : x = y
  lt : ∀ r, y = some r → r.2.length < n

def AgreeBelow (n : Nat) (f g : Nat → Peg.Rule Char ArithmeticExpr) : Prop :=
  ∀ minPrec t, t.length < n → Same t.length (f minPrec t) (g minPrec t)

section

variable {β γ : Type} {n m : Nat}

theorem Same.of_rule {p : Peg.Rule Char β} (h : Peg.Shortens p) (s : List Char) :
    Same s.length (p s) (p s) := ⟨rfl, fun r hr => h s r.1 r.2 hr⟩

theorem Same.none : Same n (none : Option (β × List Char)) none := ⟨rfl, nofun⟩

theorem Same.or {x x' y y' : Option (β × List Char)} (h : Same n x y) (h' : Same n x' y') :
    Same n (x.or x') (y.or y') :=
  ⟨by rw [h.eq, h'.eq], fun r hr => (Option.or_eq_some_iff.1 hr).elim (h.lt r) fun hr => h'.lt r hr.2⟩

theorem Same.map {x y : Option (β × List Char)} (h : Same n x y) (f : β → γ) :
    Same n (x.map fun (b, rest) => (f b, rest)) (y.map fun (b, rest) => (f b, rest)) := by
  refine ⟨by rw [h.eq], fun r hr => ?_⟩
  obtain ⟨⟨b, rest⟩, hb, rfl⟩ := Option.map_eq_some_iff.1 hr
  exact h.lt _ hb

theorem Same.bind {x y : Option (β × List Char)} {p q : β × List Char → Option (γ × List Char)}
    (h : Same m x y) (hpq : ∀ r : β × List Char, r.2.length < m → Same n (p r) (q r)) :
    Same n (x.bind p) (y.bind q) := by
  obtain ⟨rfl, hlt⟩ := h
  cases x with
  | none => exact .none
  | some r => exact hpq r (hlt r rfl)

theorem Same.expect {text s : List Char} {p q : List Char → Option (γ × List Char)}
    (hpq : ∀ t, s.length = text.length + t.length → Same n (p t) (q t)) :
    Same n ((expect text s).bind p) ((expect text s).bind q) := by
  cases ht : Arithmetic.expect text s with
  | none => exact .none
  | some t => exact hpq t (length_expect ht)

theorem Same.some {b : β} {t : List Char} (h : t.length < n) : Same n (some (b, t)) (some (b, t)) :=
  ⟨rfl, fun _ hr => Option.some.inj hr ▸ h⟩

theorem Same.findSome? {l : List β} {p q : β → Option (γ × List Char)}
    (h : ∀ o ∈ l, Same n (p o) (q o)) : Same n (l.findSome? p) (l.findSome? q) := by
  refine ⟨Peg.findSome?_congr fun o ho => (h o ho).eq, fun r hr => ?_⟩
  obtain ⟨o, ho, hr⟩ := List.exists_of_findSome?_eq_some hr
  exact (h o ho).lt r hr

theorem Same.mono {x y : Option (β × List Char)} (h : Same m x y) (hm : m ≤ n) : Same n x y :=
  ⟨h.eq, fun r hr => Nat.lt_of_lt_of_le (h.lt r hr) hm⟩

end

section

variable {f g : Nat → Peg.Rule Char ArithmeticExpr} {s : List Char}

theorem AgreeBelow.mono {n m : Nat} (h : AgreeBelow n f g) (hm : m ≤ n) : AgreeBelow m f g :=
  fun minPrec t ht => h minPrec t (Nat.lt_of_lt_of_le ht hm)

theorem AgreeBelow.blanks {n : Nat} (h : AgreeBelow n f g) (minPrec : Nat) {t : List Char}
    (ht : t.length < n) : Same t.length (f minPrec (blanks t)) (g minPrec (blanks t)) :=
  (h minPrec _ (Nat.lt_of_le_of_lt (length_blanks_le t) ht)).mono (length_blanks_le t)

theorem same_lvalue (h : AgreeBelow s.length f g) : Same s.length (lvalue f s) (lvalue g s) := by
  unfold lvalue
  cases hname : variableName s with
  | none => exact .none
  | some r =>
    obtain ⟨name, u⟩ := r
    have hu := shortens_variableName s name u hname
    by_cases hc : ∃ t, u = '[' :: t
    · obtain ⟨t, rfl⟩ := hc
      rw [List.length_cons] at hu
      obtain ⟨heq, hlt⟩ := h 0 t (by omega)
      simp only [heq]
      split
      · next index rest hindex =>
        have := hlt _ hindex
        simp only [List.length_cons] at this
        exact .some (by omega)
      · exact .some hu
    · split
      · next heq => cases heq
      · next t heq => exact absurd ⟨t, (Prod.mk.inj (Option.some.inj heq)).2⟩ hc
      · next heq =>
        cases heq
        exact .some hu

theorem same_tryAssignment (h : AgreeBelow s.length f g) (o : List Char × Option BinaryOperator) :
    Same s.length (tryAssignment f s o) (tryAssignment g s o) := by
  refine (same_lvalue h).bind fun r hr => .expect fun u hu => ?_
  have hb := length_blanks_le r.2
  exact (h.blanks 1 (by omega)).bind fun q hq => .some (by omega)

theorem same_tryUnary (h : AgreeBelow s.length f g) (text : Char) (excluded : Option Char)
    (op : UnaryOperator) (prec : Nat) :
    Same s.length (tryUnary f text excluded op prec s) (tryUnary g text excluded op prec s) := by
  cases s with
  | nil => exact .none
  | cons c s =>
    rw [tryUnary, tryUnary]
    split_ifs
    · exact ((h.blanks prec (Nat.lt_succ_self _)).map _).mono (Nat.le_succ _)
    · exact .none

theorem same_tryPrefixAssignment (h : AgreeBelow s.length f g) (text : List Char)
    (op : UnaryAssignmentOperator) :
    Same s.length (tryPrefixAssignment f text op s) (tryPrefixAssignment g text op s) := by
  refine .expect fun t ht => ?_
  have hb := length_blanks_le t
  exact ((same_lvalue (h.mono (by omega))).map _).mono (by omega)

theorem same_tryPostfixAssignment (h : AgreeBelow s.length f g) (text : List Char)
    (op : UnaryAssignmentOperator) :
    Same s.length (tryPostfixAssignment f text op s) (tryPostfixAssignment g text op s) := by
  refine (same_lvalue h).bind fun ⟨x, u⟩ hr => ?_
  have hb := length_blanks_le u
  dsimp only at hr ⊢
  rw [Option.map_eq_bind]
  exact .expect fun t ht => .some (by omega)

theorem same_parenthesized (h : AgreeBelow s.length f g) :
    Same s.length (parenthesized f s) (parenthesized g s) := by
  unfold parenthesized
  split
  · next s =>
    refine (h.blanks 0 (Nat.lt_succ_self _)).bind fun ⟨x, u⟩ hr => ?_
    have hb := length_blanks_le u
    dsimp only at hr ⊢
    rw [Option.map_eq_bind]
    exact .expect fun t ht => .some (by rw [List.length_cons]; omega)
  · exact .none

theorem same_prefixAtom (h : AgreeBelow s.length f g) :
    Same s.length (prefixAtom f s) (prefixAtom g s) :=
  .or (.findSome? fun o _ => same_tryAssignment h o) <| .or (same_tryUnary h _ _ _ _) <|
    .or (same_tryUnary h _ _ _ _) <| .or (same_tryUnary h _ _ _ _) <|
    .or (same_tryUnary h _ _ _ _) <| .or (same_tryPrefixAssignment h _ _) <|
    .or (same_tryPrefixAssignment h _ _) <| .or (same_tryPostfixAssignment h _ _) <|
    .or (same_tryPostfixAssignment h _ _) <|
    .or ((Same.of_rule shortens_literalNumber s).map _) <| .or ((same_lvalue h).map _) <|
    same_parenthesized h

theorem same_tryInfix (h : AgreeBelow s.length f g) (minPrec : Nat) (x : ArithmeticExpr)
    {o : Infix} (ho : o ∈ infixOperators) :
    Same s.length (tryInfix f minPrec x s o) (tryInfix g minPrec x s o) := by
  have hs := length_blanks_le s
  cases o with
  | binary prec text op right =>
    -- no operator is empty
    have htext : 0 < text.length := by
      have hall : ∀ o ∈ infixOperators, ∀ prec text op right,
          o = .binary prec text op right → 0 < text.length := by simp [infixOperators]
      exact hall _ ho _ _ _ _ rfl
    rw [tryInfix, tryInfix]
    by_cases hprec : minPrec ≤ prec
    · rw [if_pos hprec, if_pos hprec]
      refine .expect fun t ht => ?_
      exact (h.blanks _ (by omega)).bind fun r hr => .some (by omega)
    · rw [if_neg hprec, if_neg hprec]
      exact .none
  | conditional prec =>
    rw [tryInfix, tryInfix]
    by_cases hprec : minPrec ≤ prec
    · rw [if_pos hprec, if_pos hprec]
      refine .expect fun t ht => ?_
      rw [List.length_singleton] at ht
      refine (h.blanks _ (by omega)).bind fun r hr => .expect fun u hu => ?_
      have hr' := length_blanks_le r.2
      exact (h.blanks _ (by omega)).bind fun q hq => .some (by omega)
    · rw [if_neg hprec, if_neg hprec]
      exact .none

theorem same_climb (minPrec n : Nat) : ∀ (x : ArithmeticExpr) {s : List Char},
    AgreeBelow s.length f g → climb f minPrec n x s = climb g minPrec n x s ∧
      (climb g minPrec n x s).2.length ≤ s.length := by
  induction n with
  | zero => exact fun _ _ _ => ⟨rfl, Nat.le_refl _⟩
  | succ n ih =>
    intro x s h
    obtain ⟨heq, hlt⟩ := Same.findSome? fun o ho => same_tryInfix h minPrec x (o := o) ho
    rw [climb, climb, heq]
    cases ho : infixOperators.findSome? (tryInfix g minPrec x s) with
    | none => exact ⟨rfl, Nat.le_refl _⟩
    | some r =>
      have hr := hlt r ho
      obtain ⟨hcongr, hle⟩ := ih r.1 (h.mono (Nat.le_of_lt hr))
      exact ⟨hcongr, Nat.le_trans hle (Nat.le_of_lt hr)⟩

end

theorem same_infixParse {n m : Nat} (minPrec : Nat) {s : List Char} (hn : s.length < n)
    (hm : s.length < m) : Same s.length (infixParse n minPrec s) (infixParse m minPrec s) := by
  induction n generalizing m minPrec s with
  | zero => cases hn
  | succ n ih =>
    cases m with
    | zero => cases hm
    | succ m =>
      have h : AgreeBelow s.length (infixParse n) (infixParse m) := fun minPrec t ht =>
        ih minPrec (by omega) (by omega)
      rw [infixParse, infixParse, Option.map_eq_bind, Option.map_eq_bind]
      refine (same_prefixAtom h).bind fun r hr => ?_
      obtain ⟨heq, hle⟩ := same_climb minPrec r.2.length r.1 (h.mono (Nat.le_of_lt hr))
      refine ⟨congrArg some heq, fun q hq => ?_⟩
      obtain rfl := Option.some.inj hq
      exact Nat.lt_of_le_of_lt hle hr

/-- **Enough depth.** What is read does not depend on the depth that is left, once it is more than
the length of the input. -/
theorem infixParse_depth (n m minPrec : Nat) (s : List Char) (hn : s.length < n)
    (hm : s.length < m) : infixParse n minPrec s = infixParse m minPrec s :=
  (same_infixParse minPrec hn hm).eq

theorem infixParse_depth_sum : infixParse 4 0 ['1', '+', '2'] = infixParse 9 0 ['1', '+', '2'] :=
  infixParse_depth 4 9 0 _ (by decide) (by decide)

end Seahaven.Arithmetic
