import Seahaven.Arithmetic.Recursion

/-!
# What an expression yields

The meaning of an expression, apart from how deep the dereferences may be nested: `Yields n` tells
that an evaluation ends in a number, with at most `n` dereferences inside each other. The limit on
the depth is then no more than a bound on `n`.

1. `evaluate_reference`, `evaluate_binaryOp`, `assign_eq`, …: the evaluation, case by case.
2. `Yields`, and `evaluate_eq_ok_iff`: the evaluation yields what it should, within the limit.
3. `limit_of_endless`: a chain of dereferences without an end exceeds the limit.
-/

namespace Seahaven.Arithmetic

open Shell Fuel

/-! ## The evaluation, case by case -/

def ArithmeticTarget.subscript : ArithmeticTarget → ArithmeticExpr
  | .var _ => .literal 0
  | .arrayElement _ index => index

def shortCircuit (op : BinaryOperator) (left : Int64) : Option Int64 :=
  match op with
  | .logicalAnd => if left = 0 then some (boolToI64 false) else none
  | .logicalOr => if left ≠ 0 then some (boolToI64 true) else none
  | _ => none

def combine (op : BinaryOperator) (left right : Int64) : Except Stop Int64 :=
  match op with
  | .logicalAnd => .ok (boolToI64 (right ≠ 0))
  | .logicalOr => .ok (boolToI64 (right ≠ 0))
  | op => operate op left right

/-- The number that `++` or `--` writes. -/
def UnaryAssignmentOperator.newValue (op : UnaryAssignmentOperator) (value : Int64) : Int64 :=
  match op with
  | .prefixIncrement | .postfixIncrement => value + 1
  | .prefixDecrement | .postfixDecrement => value - 1

/-- The number that `++` or `--` yields. -/
def UnaryAssignmentOperator.result (op : UnaryAssignmentOperator) (value : Int64) : Int64 :=
  match op with
  | .prefixIncrement | .prefixDecrement => op.newValue value
  | .postfixIncrement | .postfixDecrement => value

section

variable [Getters]

def ArithmeticTarget.text (lvalue : ArithmeticTarget) (i : Int64) (s : ArithShell) :
    Except Stop (List Char) :=
  match lvalue with
  | .var name => getVarValue name s
  | .arrayElement name _ => getElement name (toText i) s

end

variable [Casing]

def ArithmeticTarget.store (lvalue : ArithmeticTarget) (i value : Int64) : Eval Unit :=
  match lvalue with
  | .var name =>
    updated fun env => env.updateOrAdd name (.scalar (toText value)) .skip .anywhere .global
  | .arrayElement name _ => storeElement name i value

variable [Getters] {d : Nat}

@[simp] theorem evaluate_literal (l : Int64) (d : Nat) : evaluate (.literal l, d) = pure l := by
  rw [evaluate_apply]
  rfl

theorem lvalueText_eq (lvalue : ArithmeticTarget) (d : Nat) :
    lvalueText evaluate lvalue d =
      evaluate (lvalue.subscript, d) >>= fun i => Op.read (lvalue.text i) := by
  cases lvalue with
  | var name =>
    rw [ArithmeticTarget.subscript, evaluate_literal]
    rfl
  | arrayElement name index => rfl

theorem assign_eq (lvalue : ArithmeticTarget) (value : Int64) (d : Nat) :
    assign evaluate lvalue value d =
      evaluate (lvalue.subscript, d) >>= fun i => lvalue.store i value >>= fun _ =>
        pure value := by
  cases lvalue with
  | var name =>
    rw [ArithmeticTarget.subscript, evaluate_literal]
    rfl
  | arrayElement name index => rfl

theorem evaluate_reference (lvalue : ArithmeticTarget) (d : Nat) :
    evaluate (.reference lvalue, d) =
      evaluate (lvalue.subscript, d) >>= fun i =>
        Op.read (lvalue.text i) >>= fun text => evalText evaluate text d := by
  rw [evaluate_apply]
  change lvalueText evaluate lvalue d >>= (fun text => evalText evaluate text d) = _
  rw [lvalueText_eq]
  exact Op.bind_assoc _ _ _

theorem evaluate_unaryOp (op : UnaryOperator) (operand : ArithmeticExpr) (d : Nat) :
    evaluate (.unaryOp op operand, d) =
      evaluate (operand, d) >>= fun a => pure (unaryValue op a) := by
  rw [evaluate_apply]
  rfl

def afterLeft (op : BinaryOperator) (right : Eval Int64) (a : Int64) : Eval Int64 :=
  match shortCircuit op a with
  | some v => pure v
  | none => right >>= fun b => Op.check (combine op a b)

theorem evaluate_binaryOp (op : BinaryOperator) (left right : ArithmeticExpr) (d : Nat) :
    evaluate (.binaryOp op left right, d) =
      evaluate (left, d) >>= afterLeft op (evaluate (right, d)) := by
  rw [evaluate_apply]
  change applyBinaryOp evaluate op left right d = _
  by_cases hand : op = .logicalAnd
  · subst hand
    refine congrArg (evaluate (left, d) >>= ·) (funext fun a => ?_)
    unfold afterLeft shortCircuit
    dsimp only
    split_ifs <;> rfl
  by_cases hor : op = .logicalOr
  · subst hor
    refine congrArg (evaluate (left, d) >>= ·) (funext fun a => ?_)
    unfold afterLeft shortCircuit
    dsimp only
    split_ifs <;> rfl
  rw [applyBinaryOp_eq _ hand hor]
  refine congrArg (evaluate (left, d) >>= ·) (funext fun a => ?_)
  cases op with
  | logicalAnd => exact absurd rfl hand
  | logicalOr => exact absurd rfl hor
  | _ => rfl

theorem evaluate_conditional (condition thenExpr elseExpr : ArithmeticExpr) (d : Nat) :
    evaluate (.conditional condition thenExpr elseExpr, d) =
      evaluate (condition, d) >>= fun c =>
        evaluate (if c ≠ 0 then thenExpr else elseExpr, d) := by
  rw [evaluate_apply]
  refine congrArg (evaluate (condition, d) >>= ·) (funext fun c => ?_)
  split_ifs <;> rfl

theorem evaluate_assignment (lvalue : ArithmeticTarget) (rhs : ArithmeticExpr) (d : Nat) :
    evaluate (.assignment lvalue rhs, d) =
      evaluate (rhs, d) >>= fun v => assign evaluate lvalue v d := by
  rw [evaluate_apply]
  rfl

theorem evaluate_unaryAssignment (op : UnaryAssignmentOperator) (lvalue : ArithmeticTarget)
    (d : Nat) :
    evaluate (.unaryAssignment op lvalue, d) =
      evaluate (.reference lvalue, d) >>= fun a => assign evaluate lvalue (op.newValue a) d >>=
        fun _ => pure (op.result a) := by
  rw [evaluate_apply, evaluate_apply (.reference lvalue, d)]
  cases op <;> rfl

theorem evaluate_binaryAssignment (op : BinaryOperator) (lvalue : ArithmeticTarget)
    (operand : ArithmeticExpr) (d : Nat) :
    evaluate (.binaryAssignment op lvalue operand, d) =
      evaluate (.binaryOp op (.reference lvalue) operand, d) >>= fun v =>
        assign evaluate lvalue v d := by
  rw [evaluate_apply, evaluate_apply (.binaryOp op (.reference lvalue) operand, d)]
  rfl

/-! ## What an expression yields -/

/-- The expression yields a number and leaves a state of the shell, with at most `n` dereferences
inside each other. -/
inductive Yields : Nat → ArithmeticExpr → ArithShell → Int64 → ArithShell → Prop
  | literal {n : Nat} {l : Int64} {s : ArithShell} : Yields n (.literal l) s l s
  | number {n : Nat} {lvalue : ArithmeticTarget} {i l : Int64} {text : List Char}
      {s s' : ArithShell} (index : Yields n lvalue.subscript s i s')
      (read : lvalue.text i s' = .ok text) (parsed : parse text = some (.literal l)) :
      Yields n (.reference lvalue) s l s'
  | expression {n : Nat} {lvalue : ArithmeticTarget} {i v : Int64} {text : List Char}
      {e : ArithmeticExpr} {s s' t : ArithShell} (index : Yields (n + 1) lvalue.subscript s i s')
      (read : lvalue.text i s' = .ok text) (parsed : parse text = some e)
      (deeper : ∀ l, e ≠ .literal l) (value : Yields n e s' v t) :
      Yields (n + 1) (.reference lvalue) s v t
  | unaryOp {n : Nat} {op : UnaryOperator} {operand : ArithmeticExpr} {a : Int64}
      {s s' : ArithShell} (value : Yields n operand s a s') :
      Yields n (.unaryOp op operand) s (unaryValue op a) s'
  | short {n : Nat} {op : BinaryOperator} {left right : ArithmeticExpr} {a v : Int64}
      {s s' : ArithShell} (first : Yields n left s a s') (decided : shortCircuit op a = some v) :
      Yields n (.binaryOp op left right) s v s'
  | binaryOp {n : Nat} {op : BinaryOperator} {left right : ArithmeticExpr} {a b v : Int64}
      {s s' t : ArithShell} (first : Yields n left s a s') (undecided : shortCircuit op a = none)
      (second : Yields n right s' b t) (value : combine op a b = .ok v) :
      Yields n (.binaryOp op left right) s v t
  | conditional {n : Nat} {condition thenExpr elseExpr : ArithmeticExpr} {c v : Int64}
      {s s' t : ArithShell} (test : Yields n condition s c s')
      (branch : Yields n (if c ≠ 0 then thenExpr else elseExpr) s' v t) :
      Yields n (.conditional condition thenExpr elseExpr) s v t
  | assignment {n : Nat} {lvalue : ArithmeticTarget} {rhs : ArithmeticExpr} {v i : Int64}
      {s s' s'' t : ArithShell} (value : Yields n rhs s v s')
      (index : Yields n lvalue.subscript s' i s'') (stored : lvalue.store i v s'' = (.ok (), t)) :
      Yields n (.assignment lvalue rhs) s v t
  | unaryAssignment {n : Nat} {op : UnaryAssignmentOperator} {lvalue : ArithmeticTarget}
      {a i : Int64} {s s' s'' t : ArithShell} (value : Yields n (.reference lvalue) s a s')
      (index : Yields n lvalue.subscript s' i s'')
      (stored : lvalue.store i (op.newValue a) s'' = (.ok (), t)) :
      Yields n (.unaryAssignment op lvalue) s (op.result a) t
  | binaryAssignment {n : Nat} {op : BinaryOperator} {lvalue : ArithmeticTarget}
      {operand : ArithmeticExpr} {v i : Int64} {s s' s'' t : ArithShell}
      (value : Yields n (.binaryOp op (.reference lvalue) operand) s v s')
      (index : Yields n lvalue.subscript s' i s'') (stored : lvalue.store i v s'' = (.ok (), t)) :
      Yields n (.binaryAssignment op lvalue operand) s v t

/-- The computation yields what it should, or the limit is exceeded, which it is not where at most
`n` dereferences are left. -/
def Attains {α : Type} (n d : Nat) (x : Eval α) (s : ArithShell) (a : α) (s' : ArithShell) : Prop :=
  x s = (.ok a, s') ∨
    maxVariableDerefDepth < d + n ∧ ∃ t, x s = (.error (.error .recursionLimitExceeded), t)

variable {n : Nat} {s s' t : ArithShell}

omit [Casing] [Getters] in
theorem Attains.bind {α β : Type} {x : Eval α} {f : α → Eval β}
    {a : α} {b : β} (hx : Attains n d x s a s') (hf : Attains n d (f a) s' b t) :
    Attains n d (x >>= f) s b t := by
  rcases hx with hx | ⟨hlimit, t', hx⟩
  · rw [Attains, Op.bind_ok hx]
    exact hf
  · exact .inr ⟨hlimit, t', Op.bind_error hx⟩

variable {lvalue : ArithmeticTarget} {v : Int64}

theorem attains_assign {i : Int64}
    (hindex : Attains n d (evaluate (lvalue.subscript, d)) s i s')
    (hstore : lvalue.store i v s' = (.ok (), t)) :
    Attains n d (assign evaluate lvalue v d) s v t := by
  rw [assign_eq]
  exact hindex.bind (.inl (Op.bind_ok hstore))

variable {e : ArithmeticExpr}

theorem evalText_eq {text : List Char} (hparsed : parse text = some e)
    (hdeeper : ∀ l, e ≠ .literal l) (d : Nat) :
    evalText evaluate text d =
      if maxVariableDerefDepth < d + 1 then failure .recursionLimitExceeded
      else evaluate (e, d + 1) := by
  rw [evalText, hparsed]
  cases e with
  | literal l => exact absurd rfl (hdeeper l)
  | _ => rfl

theorem attains_of_yields (h : Yields n e s v t) : ∀ d, Attains n d (evaluate (e, d)) s v t := by
  induction h with
  | literal =>
    intro d
    rw [evaluate_literal]
    exact .inl rfl
  | @number n lvalue i l text s s' hindex hread hparsed ih =>
    intro d
    rw [evaluate_reference]
    refine (ih d).bind (.inl ?_)
    rw [Op.read_bind_ok hread, evalText, hparsed]
    dsimp only
    rw [evaluate_literal]
    rfl
  | @expression n lvalue i v text e s s' t hindex hread hparsed hdeeper hvalue ihindex ihvalue =>
    intro d
    rw [evaluate_reference]
    refine (ihindex d).bind ?_
    rw [Attains, Op.read_bind_ok hread, evalText_eq hparsed hdeeper]
    split_ifs with hlimit
    · exact .inr ⟨by omega, s', rfl⟩
    · refine (ihvalue (d + 1)).imp id fun ⟨hn, hfail⟩ => ⟨by omega, hfail⟩
  | unaryOp value ih =>
    intro d
    rw [evaluate_unaryOp]
    refine (ih d).bind ?_
    exact .inl rfl
  | short first decided ih =>
    intro d
    rw [evaluate_binaryOp]
    refine (ih d).bind (.inl ?_)
    rw [afterLeft, decided]
    rfl
  | binaryOp first undecided second value ihfirst ihsecond =>
    intro d
    rw [evaluate_binaryOp]
    refine (ihfirst d).bind ?_
    rw [afterLeft, undecided]
    refine (ihsecond d).bind (.inl ?_)
    rw [value]
    rfl
  | conditional test branch ihtest ihbranch =>
    intro d
    rw [evaluate_conditional]
    refine (ihtest d).bind ?_
    exact ihbranch d
  | assignment value index stored ihvalue ihindex =>
    intro d
    rw [evaluate_assignment]
    exact (ihvalue d).bind (attains_assign (ihindex d) stored)
  | unaryAssignment value index stored ihvalue ihindex =>
    intro d
    rw [evaluate_unaryAssignment]
    exact (ihvalue d).bind ((attains_assign (ihindex d) stored).bind (.inl rfl))
  | binaryAssignment value index stored ihvalue ihindex =>
    intro d
    rw [evaluate_binaryAssignment]
    exact (ihvalue d).bind (attains_assign (ihindex d) stored)

theorem assign_eq_ok {w : Int64}
    (h : assign evaluate lvalue v d s = (.ok w, t)) :
    w = v ∧ ∃ i s', evaluate (lvalue.subscript, d) s = (.ok i, s') ∧
      lvalue.store i v s' = (.ok (), t) := by
  rw [assign_eq] at h
  obtain ⟨i, s', hi, h⟩ := Op.bind_eq_ok.1 h
  obtain ⟨u, s'', hstore, h⟩ := Op.bind_eq_ok.1 h
  cases h
  exact ⟨rfl, i, s', hi, hstore⟩

omit [Casing] [Getters] in
theorem size_subscript (lvalue : ArithmeticTarget) : lvalue.subscript.size ≤ lvalue.size := by
  cases lvalue with
  | var name => exact Nat.le_refl 1
  | arrayElement name index => exact Nat.le_add_left _ 1

theorem yields_of_ok (j : ArithmeticExpr × Nat) :
    j.2 ≤ maxVariableDerefDepth → ∀ {s v t}, evaluate j s = (.ok v, t) →
      Yields (maxVariableDerefDepth - j.2) j.1 s v t := by
  induction j using wellFounded_below.induction with
  | _ j ih =>
    obtain ⟨e, d⟩ := j
    intro hd s v t h
    have hsmaller : ∀ e', e'.size < e.size → ∀ {s v t}, evaluate (e', d) s = (.ok v, t) →
        Yields (maxVariableDerefDepth - d) e' s v t :=
      fun e' hsize => ih (e', d) (below_of_size hsize d) hd
    dsimp only
    cases e with
    | literal l =>
      rw [evaluate_literal] at h
      cases h
      exact .literal
    | reference lvalue =>
      have hsub := size_subscript lvalue
      rw [evaluate_reference] at h
      obtain ⟨i, s', hi, h⟩ := Op.bind_eq_ok.1 h
      obtain ⟨text, s'', hread, h⟩ := Op.bind_eq_ok.1 h
      obtain ⟨htext, rfl⟩ := Op.read_eq_ok.1 hread
      have hindex := hsmaller _ (by rw [ArithmeticExpr.size]; omega) hi
      cases hparsed : parse text with
      | none =>
        rw [evalText, hparsed] at h
        cases h
      | some e' =>
        by_cases hliteral : ∃ l, e' = .literal l
        · obtain ⟨l, rfl⟩ := hliteral
          rw [evalText, hparsed] at h
          dsimp only at h
          rw [evaluate_literal] at h
          cases h
          exact .number hindex htext hparsed
        · have hdeeper : ∀ l, e' ≠ .literal l := fun l hl => hliteral ⟨l, hl⟩
          rw [evalText_eq hparsed hdeeper] at h
          split_ifs at h with hlimit
          · cases h
          · have hd' : d + 1 ≤ maxVariableDerefDepth := Nat.le_of_not_lt hlimit
            have hvalue := ih (e', d + 1) (below_of_depth _ _ hd') hd' h
            have hn : maxVariableDerefDepth - d = maxVariableDerefDepth - (d + 1) + 1 := by omega
            rw [hn] at hindex ⊢
            exact .expression hindex htext hparsed hdeeper hvalue
    | unaryOp op operand =>
      rw [evaluate_unaryOp] at h
      obtain ⟨a, s', ha, h⟩ := Op.bind_eq_ok.1 h
      cases h
      exact .unaryOp (hsmaller _ (by rw [ArithmeticExpr.size]; omega) ha)
    | binaryOp op left right =>
      rw [evaluate_binaryOp] at h
      obtain ⟨a, s', ha, h⟩ := Op.bind_eq_ok.1 h
      have hleft := hsmaller left (by rw [ArithmeticExpr.size]; omega) ha
      rw [afterLeft] at h
      cases hshort : shortCircuit op a with
      | some w =>
        rw [hshort] at h
        cases h
        exact .short hleft hshort
      | none =>
        rw [hshort] at h
        obtain ⟨b, s'', hb, h⟩ := Op.bind_eq_ok.1 h
        obtain ⟨hvalue, rfl⟩ := Prod.mk.inj h
        exact .binaryOp hleft hshort (hsmaller right (by rw [ArithmeticExpr.size]; omega) hb) hvalue
    | conditional condition thenExpr elseExpr =>
      rw [evaluate_conditional] at h
      obtain ⟨c, s', hc, h⟩ := Op.bind_eq_ok.1 h
      refine .conditional (hsmaller condition (by rw [ArithmeticExpr.size]; omega) hc) ?_
      refine hsmaller _ ?_ h
      rw [ArithmeticExpr.size]
      split_ifs <;> omega
    | assignment lvalue rhs =>
      have hsub := size_subscript lvalue
      rw [evaluate_assignment] at h
      obtain ⟨w, s', hw, h⟩ := Op.bind_eq_ok.1 h
      obtain ⟨rfl, i, s'', hi, hstore⟩ := assign_eq_ok h
      exact .assignment (hsmaller rhs (by rw [ArithmeticExpr.size]; omega) hw)
        (hsmaller _ (by rw [ArithmeticExpr.size]; omega) hi) hstore
    | unaryAssignment op lvalue =>
      have hsub := size_subscript lvalue
      rw [evaluate_unaryAssignment] at h
      obtain ⟨a, s₁, ha, h⟩ := Op.bind_eq_ok.1 h
      obtain ⟨w, s₂, hassign, h⟩ := Op.bind_eq_ok.1 h
      cases h
      obtain ⟨-, i, s₃, hi, hstore⟩ := assign_eq_ok hassign
      refine .unaryAssignment (hsmaller _ ?_ ha)
        (hsmaller _ (by rw [ArithmeticExpr.size]; omega) hi) hstore
      rw [ArithmeticExpr.size, ArithmeticExpr.size]
      omega
    | binaryAssignment op lvalue operand =>
      have hsub := size_subscript lvalue
      rw [evaluate_binaryAssignment] at h
      obtain ⟨w, s', hw, h⟩ := Op.bind_eq_ok.1 h
      obtain ⟨rfl, i, s'', hi, hstore⟩ := assign_eq_ok h
      refine .binaryAssignment (hsmaller _ ?_ hw)
        (hsmaller _ (by rw [ArithmeticExpr.size]; omega) hi) hstore
      rw [ArithmeticExpr.size, ArithmeticExpr.size, ArithmeticExpr.size]
      omega

/-- **Evaluation.** An expression is evaluated to what it yields with at most 1024 dereferences
inside each other. -/
theorem evaluate_eq_ok_iff {e : ArithmeticExpr} {s t : ArithShell} {v : Int64} :
    evaluate (e, 0) s = (.ok v, t) ↔ Yields maxVariableDerefDepth e s v t := by
  refine ⟨fun h => yields_of_ok (e, 0) (Nat.zero_le _) h, fun h => ?_⟩
  refine (attains_of_yields h 0).resolve_right fun hlimit => ?_
  omega

/-! ## Chains without an end -/

/-- The evaluation of an expression comes to a reference, with a state of the shell. -/
inductive Reaches : ArithmeticExpr → ArithShell → ArithmeticTarget → ArithShell → Prop
  | here {lvalue : ArithmeticTarget} {s : ArithShell} : Reaches (.reference lvalue) s lvalue s
  | subscript {lvalue target : ArithmeticTarget} {s t : ArithShell}
      (index : Reaches lvalue.subscript s target t) : Reaches (.reference lvalue) s target t
  | operand {op : UnaryOperator} {operand : ArithmeticExpr} {target : ArithmeticTarget}
      {s t : ArithShell} (value : Reaches operand s target t) :
      Reaches (.unaryOp op operand) s target t
  | left {op : BinaryOperator} {left right : ArithmeticExpr} {target : ArithmeticTarget}
      {s t : ArithShell} (first : Reaches left s target t) :
      Reaches (.binaryOp op left right) s target t
  | right {n : Nat} {op : BinaryOperator} {left right : ArithmeticExpr} {a : Int64}
      {target : ArithmeticTarget} {s s' t : ArithShell} (first : Yields n left s a s')
      (undecided : shortCircuit op a = none) (second : Reaches right s' target t) :
      Reaches (.binaryOp op left right) s target t
  | condition {condition thenExpr elseExpr : ArithmeticExpr} {target : ArithmeticTarget}
      {s t : ArithShell} (test : Reaches condition s target t) :
      Reaches (.conditional condition thenExpr elseExpr) s target t
  | branch {n : Nat} {condition thenExpr elseExpr : ArithmeticExpr} {c : Int64}
      {target : ArithmeticTarget} {s s' t : ArithShell} (test : Yields n condition s c s')
      (branch : Reaches (if c ≠ 0 then thenExpr else elseExpr) s' target t) :
      Reaches (.conditional condition thenExpr elseExpr) s target t
  | rhs {lvalue target : ArithmeticTarget} {rhs : ArithmeticExpr} {s t : ArithShell}
      (value : Reaches rhs s target t) : Reaches (.assignment lvalue rhs) s target t
  | assigned {n : Nat} {lvalue target : ArithmeticTarget} {rhs : ArithmeticExpr} {v : Int64}
      {s s' t : ArithShell} (value : Yields n rhs s v s')
      (index : Reaches lvalue.subscript s' target t) : Reaches (.assignment lvalue rhs) s target t
  | stepped {op : UnaryAssignmentOperator} {lvalue target : ArithmeticTarget} {s t : ArithShell}
      (value : Reaches (.reference lvalue) s target t) :
      Reaches (.unaryAssignment op lvalue) s target t
  | steppedAt {n : Nat} {op : UnaryAssignmentOperator} {lvalue target : ArithmeticTarget}
      {a : Int64} {s s' t : ArithShell} (value : Yields n (.reference lvalue) s a s')
      (index : Reaches lvalue.subscript s' target t) :
      Reaches (.unaryAssignment op lvalue) s target t
  | compound {op : BinaryOperator} {lvalue target : ArithmeticTarget} {operand : ArithmeticExpr}
      {s t : ArithShell} (value : Reaches (.binaryOp op (.reference lvalue) operand) s target t) :
      Reaches (.binaryAssignment op lvalue operand) s target t
  | compoundAt {n : Nat} {op : BinaryOperator} {lvalue target : ArithmeticTarget}
      {operand : ArithmeticExpr} {v : Int64} {s s' t : ArithShell}
      (value : Yields n (.binaryOp op (.reference lvalue) operand) s v s')
      (index : Reaches lvalue.subscript s' target t) :
      Reaches (.binaryAssignment op lvalue operand) s target t

def Next (p q : ArithmeticTarget × ArithShell) : Prop :=
  ∃ n i s text e, Yields n p.1.subscript p.2 i s ∧ p.1.text i s = .ok text ∧
    parse text = some e ∧ (∀ l, e ≠ .literal l) ∧ Reaches e s q.1 q.2

def ExceedsLimit {α : Type} (x : Eval α) (s : ArithShell) : Prop :=
  ∃ t, x s = (.error (.error .recursionLimitExceeded), t)

omit [Casing] [Getters] in
theorem ExceedsLimit.bind {α β : Type} {x : Eval α} {f : α → Eval β}
    (h : ExceedsLimit x s) : ExceedsLimit (x >>= f) s := h.imp fun _ ht => Op.bind_error ht

omit [Casing] [Getters] in
theorem Attains.exceeds {α β : Type} {x : Eval α} {f : α → Eval β}
    {a : α} (hx : Attains n d x s a s') (hf : ExceedsLimit (f a) s') :
    ExceedsLimit (x >>= f) s := by
  rcases hx with hx | ⟨-, hx⟩
  · rw [ExceedsLimit, Op.bind_ok hx]
    exact hf
  · exact ExceedsLimit.bind hx

theorem exceeds_assign (h : ExceedsLimit (evaluate (lvalue.subscript, d)) s) :
    ExceedsLimit (assign evaluate lvalue v d) s := by
  rw [assign_eq]
  exact h.bind

theorem exceeds_of_reaches {target : ArithmeticTarget}
    (h : Reaches e s target t) (hlimit : ExceedsLimit (evaluate (.reference target, d)) t) :
    ExceedsLimit (evaluate (e, d)) s := by
  induction h with
  | here => exact hlimit
  | subscript index ih =>
    rw [evaluate_reference]
    exact (ih hlimit).bind
  | operand value ih =>
    rw [evaluate_unaryOp]
    exact (ih hlimit).bind
  | left first ih =>
    rw [evaluate_binaryOp]
    exact (ih hlimit).bind
  | right first undecided second ih =>
    rw [evaluate_binaryOp]
    refine (attains_of_yields first d).exceeds ?_
    rw [afterLeft, undecided]
    exact (ih hlimit).bind
  | condition test ih =>
    rw [evaluate_conditional]
    exact (ih hlimit).bind
  | branch test branch ih =>
    rw [evaluate_conditional]
    exact (attains_of_yields test d).exceeds (ih hlimit)
  | rhs value ih =>
    rw [evaluate_assignment]
    exact (ih hlimit).bind
  | assigned value index ih =>
    rw [evaluate_assignment]
    exact (attains_of_yields value d).exceeds (exceeds_assign (ih hlimit))
  | stepped value ih =>
    rw [evaluate_unaryAssignment]
    exact (ih hlimit).bind
  | steppedAt value index ih =>
    rw [evaluate_unaryAssignment]
    exact (attains_of_yields value d).exceeds (exceeds_assign (ih hlimit)).bind
  | compound value ih =>
    rw [evaluate_binaryAssignment]
    exact (ih hlimit).bind
  | compoundAt value index ih =>
    rw [evaluate_binaryAssignment]
    exact (attains_of_yields value d).exceeds (exceeds_assign (ih hlimit))

/-- **Endless chains.** Where each reference comes to another one of the set, the limit is
exceeded. -/
theorem exceeds_of_endless {C : Set (ArithmeticTarget × ArithShell)}
    (hC : ∀ p ∈ C, ∃ q ∈ C, Next p q) :
    ∀ (k d : Nat) (p : ArithmeticTarget × ArithShell), p ∈ C → maxVariableDerefDepth - d ≤ k →
      ExceedsLimit (evaluate (.reference p.1, d)) p.2 := by
  intro k
  -- on how much of the depth is left
  induction k with
  | zero =>
    intro d p hp hd
    obtain ⟨q, hq, n, i, s, text, e, hindex, hread, hparsed, hdeeper, hreaches⟩ := hC p hp
    rw [evaluate_reference]
    refine (attains_of_yields hindex d).exceeds ⟨s, ?_⟩
    rw [Op.read_bind_ok hread, evalText_eq hparsed hdeeper, if_pos (by omega)]
    rfl
  | succ k ih =>
    intro d p hp hd
    obtain ⟨q, hq, n, i, s, text, e, hindex, hread, hparsed, hdeeper, hreaches⟩ := hC p hp
    rw [evaluate_reference]
    refine (attains_of_yields hindex d).exceeds ?_
    rw [ExceedsLimit, Op.read_bind_ok hread, evalText_eq hparsed hdeeper]
    split_ifs with hlimit
    · exact ⟨s, rfl⟩
    · exact exceeds_of_reaches hreaches (ih (d + 1) q hq (by omega))

/-- **Cycles.** What comes to a reference on a cycle exceeds the limit. -/
theorem exceeds_of_cycle {p : ArithmeticTarget × ArithShell} (hcycle : Relation.TransGen Next p p)
    (h : Reaches e s p.1 p.2) : ExceedsLimit (evaluate (e, d)) s := by
  refine exceeds_of_reaches h ?_
  refine exceeds_of_endless (C := fun q => Relation.TransGen Next q q) ?_ _ d p hcycle
    (Nat.le_refl _)
  intro q hq
  obtain ⟨r, hnext, hback⟩ := Relation.TransGen.head'_iff.1 hq
  exact ⟨r, Relation.TransGen.tail'_iff.2 ⟨q, hback, hnext⟩, hnext⟩

end Seahaven.Arithmetic
