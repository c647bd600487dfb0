import Seahaven.Arithmetic.Eval
import Seahaven.Shell.Transform

/-!
# The recursion of the evaluation

A recursive call is for a smaller expression at the same depth, or for any expression one
dereference deeper, and the depth is bounded. So the evaluation of every expression ends.

1. `Below`: the relation in which the recursive calls go down.
2. `recurses_evalStep`: each function of the evaluation settles where its recursive calls do, and
   does not panic unless an update of the variables does.
3. `evaluate`, and `evaluate_eq`, its recursion.
-/

namespace Seahaven.Arithmetic

open Shell Fuel

mutual

/-- The size of an expression. -/
def ArithmeticExpr.size : ArithmeticExpr → Nat
  | .literal _ => 1
  | .reference lvalue => 1 + lvalue.size
  | .unaryOp _ operand => 1 + operand.size
  | .binaryOp _ left right => 1 + left.size + right.size
  | .conditional condition thenExpr elseExpr => 1 + condition.size + thenExpr.size + elseExpr.size
  | .assignment lvalue rhs => 1 + lvalue.size + rhs.size
  -- they are more than the reference to the target and the operator on it
  | .binaryAssignment _ lvalue operand => 3 + lvalue.size + operand.size
  | .unaryAssignment _ lvalue => 2 + lvalue.size

def ArithmeticTarget.size : ArithmeticTarget → Nat
  | .var _ => 1
  | .arrayElement _ index => 1 + index.size

end

def Below : ArithmeticExpr × Nat → ArithmeticExpr × Nat → Prop :=
  InvImage (Prod.Lex (· < ·) (· < ·)) fun p => (maxVariableDerefDepth - p.2, p.1.size)

theorem wellFounded_below : WellFounded Below :=
  InvImage.wf _ (WellFounded.prod_lex Nat.lt_wfRel.wf Nat.lt_wfRel.wf)

theorem below_of_size {e e' : ArithmeticExpr} (h : e'.size < e.size) (depth : Nat) :
    Below (e', depth) (e, depth) := Prod.Lex.right _ h

theorem below_of_depth (e e' : ArithmeticExpr) {depth : Nat}
    (h : depth + 1 ≤ maxVariableDerefDepth) : Below (e', depth + 1) (e, depth) := by
  refine Prod.Lex.left _ _ ?_
  change maxVariableDerefDepth - (depth + 1) < maxVariableDerefDepth - depth
  omega

theorem size_pos (lvalue : ArithmeticTarget) : 1 ≤ lvalue.size := by
  cases lvalue with
  | var name => exact Nat.le_refl 1
  | arrayElement name index => exact Nat.le_add_right 1 _

def eager (eval : ArithmeticExpr × Nat → Eval Int64) (op : BinaryOperator)
    (left right : ArithmeticExpr) (depth : Nat) : Eval Int64 := do
  let left ← eval (left, depth)
  let right ← eval (right, depth)
  Op.check (operate op left right)

variable {op : BinaryOperator}

theorem applyBinaryOp_eq (eval : ArithmeticExpr × Nat → Eval Int64)
    (hand : op ≠ .logicalAnd) (hor : op ≠ .logicalOr) (left right : ArithmeticExpr) (depth : Nat) :
    applyBinaryOp eval op left right depth = eager eval op left right depth := by
  cases op with
  | logicalAnd => exact absurd rfl hand
  | logicalOr => exact absurd rfl hor
  | _ => rfl

section

variable {bad : Stop → Prop} {f : Nat → ArithmeticExpr × Nat → Eval Int64}
  {g : ArithmeticExpr × Nat → Eval Int64} {depth k : Nat}

/-- The recursive calls of an expression of a size at a depth settle. -/
structure Inner (bad : Stop → Prop) (f : Nat → ArithmeticExpr × Nat → Eval Int64)
    (g : ArithmeticExpr × Nat → Eval Int64) (depth k : Nat) : Prop where
  smaller : ∀ e, e.size < k → ∀ s, Settles bad (fun n => f n (e, depth)) (g (e, depth)) s
  deeper : depth + 1 ≤ maxVariableDerefDepth → ∀ e s,
    Settles bad (fun n => f n (e, depth + 1)) (g (e, depth + 1)) s

def ErrorsFine (bad : Stop → Prop) : Prop := ∀ e, ¬ bad (.error e)

/-- The updates of the variables do not fail badly. -/
structure UpdatesFine [Casing] (bad : Stop → Prop) : Prop where
  whole : ∀ name value s, ∀ e,
    (updated (fun env => env.updateOrAdd name (.scalar (toText value)) .skip .anywhere .global)
      s).1 = .error e → ¬ bad e
  element : ∀ name index value s, ∀ e, (storeElement name index value s).1 = .error e → ¬ bad e

theorem settles_failure {α : Type} (herr : ErrorsFine bad) (e : EvalError) (s : ArithShell) :
    Settles bad (fun _ => (failure e : Eval α)) (failure e) s :=
  settles_const fun e' he => by
    cases he
    exact herr e

variable {s : ArithShell}

theorem settles_read {α : Type} {t : ArithShell → Except Stop α}
    (h : ∀ e, t s = .error e → ¬ bad e) :
    Settles bad (fun _ => Op.read t) (Op.read t) s := settles_const h

variable {e : Stop}

theorem getVarValue_error [Getters] {name : List Char}
    (h : getVarValue name s = .error e) : ∃ e', e = .error e' := by
  unfold getVarValue at h
  split at h
  · split_ifs at h
    cases h
    exact ⟨_, rfl⟩
  · split_ifs at h
    cases h
    exact ⟨_, rfl⟩

theorem getElement_error [Getters] {name index : List Char}
    (h : getElement name index s = .error e) : ∃ e', e = .error e' := by
  unfold getElement at h
  split at h
  · cases h
  · split at h
    · cases h
    · cases h
      exact ⟨_, rfl⟩

theorem operate_error (hand : op ≠ .logicalAnd) (hor : op ≠ .logicalOr)
    {left right : Int64} (h : operate op left right = .error e) :
    ∃ e', e = .error e' := by
  cases op with
  | logicalAnd => exact absurd rfl hand
  | logicalOr => exact absurd rfl hor
  | power =>
    simp only [operate] at h
    split_ifs at h
    cases h
    exact ⟨_, rfl⟩
  | divide =>
    simp only [operate, wrappingDiv] at h
    split_ifs at h
    cases h
    exact ⟨_, rfl⟩
  | modulo =>
    simp only [operate, wrappingRem] at h
    split_ifs at h
    cases h
    exact ⟨_, rfl⟩
  | _ => cases h

section

variable [Getters] (hinner : Inner bad f g depth k) (herr : ErrorsFine bad)

include hinner herr

variable {lvalue : ArithmeticTarget}

theorem settles_lvalueText (hk : lvalue.size ≤ k) (s : ArithShell) :
    Settles bad (fun n => lvalueText (f n) lvalue depth) (lvalueText g lvalue depth) s := by
  cases lvalue with
  | var name =>
    refine settles_read fun e he => ?_
    obtain ⟨e', rfl⟩ := getVarValue_error he
    exact herr e'
  | arrayElement name index =>
    refine (hinner.smaller index (by rw [ArithmeticTarget.size] at hk; omega) s).bind
      fun i s' _ => settles_read fun e he => ?_
    obtain ⟨e', rfl⟩ := getElement_error he
    exact herr e'

omit [Getters] in
theorem settles_evalText (hk : 1 < k) (text : List Char) (s : ArithShell) :
    Settles bad (fun n => evalText (f n) text depth) (evalText g text depth) s := by
  unfold evalText
  split
  · exact settles_failure herr _ s
  · next l _ => exact hinner.smaller (.literal l) hk s
  · next parsed _ _ =>
    refine Settles.ite (fun _ => settles_failure herr _ s) fun hdepth => ?_
    exact hinner.deeper (Nat.le_of_not_lt hdepth) parsed s

theorem settles_derefLvalue (hk : lvalue.size < k) (s : ArithShell) :
    Settles bad (fun n => derefLvalue (f n) lvalue depth) (derefLvalue g lvalue depth) s :=
  (settles_lvalueText hinner herr hk.le s).bind fun text s' _ =>
    settles_evalText hinner herr (Nat.lt_of_le_of_lt (size_pos lvalue) hk) text s'

omit [Getters] in
theorem settles_eager (hand : op ≠ .logicalAnd) (hor : op ≠ .logicalOr)
    {left right : ArithmeticExpr} (hleft : left.size < k) (hright : right.size < k)
    (s : ArithShell) :
    Settles bad (fun n => eager (f n) op left right depth) (eager g op left right depth) s := by
  refine (hinner.smaller left hleft s).bind fun a s' _ =>
    (hinner.smaller right hright s').bind fun b s'' _ => settles_const fun e he => ?_
  obtain ⟨e', rfl⟩ := operate_error hand hor he
  exact herr e'

omit [Getters] in
theorem settles_applyBinaryOp (op : BinaryOperator) {left right : ArithmeticExpr}
    (hleft : left.size < k) (hright : right.size < k) (s : ArithShell) :
    Settles bad (fun n => applyBinaryOp (f n) op left right depth)
      (applyBinaryOp g op left right depth) s := by
  by_cases hand : op = .logicalAnd
  · subst hand
    exact (hinner.smaller left hleft s).bind fun a s' _ =>
      Settles.ite (fun _ => settles_pure _) fun _ =>
        (hinner.smaller right hright s').bind fun b s'' _ => settles_pure _
  by_cases hor : op = .logicalOr
  · subst hor
    exact (hinner.smaller left hleft s).bind fun a s' _ =>
      Settles.ite (fun _ => settles_pure _) fun _ =>
        (hinner.smaller right hright s').bind fun b s'' _ => settles_pure _
  simp only [applyBinaryOp_eq _ hand hor]
  exact settles_eager hinner herr hand hor hleft hright s

variable [Casing] (hup : UpdatesFine bad)

include hup

omit herr [Getters] in
theorem settles_assign (hk : lvalue.size ≤ k) (value : Int64)
    (s : ArithShell) :
    Settles bad (fun n => assign (f n) lvalue value depth) (assign g lvalue value depth) s := by
  cases lvalue with
  | var name =>
    exact (settles_const (hup.whole name value s)).bind fun _ s' _ => settles_pure value
  | arrayElement name index =>
    refine (hinner.smaller index (by rw [ArithmeticTarget.size] at hk; omega) s).bind
      fun i s' _ => ?_
    exact (settles_const (hup.element name i value s')).bind fun _ s'' _ => settles_pure value

theorem settles_applyUnaryAssignmentOp (op : UnaryAssignmentOperator)
    (hk : lvalue.size < k) (s : ArithShell) :
    Settles bad (fun n => applyUnaryAssignmentOp (f n) op lvalue depth)
      (applyUnaryAssignmentOp g op lvalue depth) s := by
  refine (settles_derefLvalue hinner herr hk s).bind fun value s' _ => ?_
  cases op <;>
    exact (settles_assign hinner hup hk.le _ s').bind fun _ s'' _ => settles_pure _

end

theorem recurses_evalStep [Casing] [Getters] (herr : ErrorsFine bad) (hup : UpdatesFine bad) :
    Recurses bad Below evalStep := by
  rintro ⟨e, depth⟩ f g hcalls s
  have hinner : Inner bad f g depth e.size :=
    ⟨fun e' he' s => hcalls _ (below_of_size he' depth) s,
      fun hdepth e' s => hcalls _ (below_of_depth e e' hdepth) s⟩
  cases e with
  | literal l => exact settles_pure l
  | reference lvalue =>
    exact settles_derefLvalue hinner herr (by rw [ArithmeticExpr.size]; omega) s
  | unaryOp op operand =>
    exact (hinner.smaller operand (by rw [ArithmeticExpr.size]; omega) s).bind fun _ s' _ =>
      settles_pure _
  | binaryOp op left right =>
    exact settles_applyBinaryOp hinner herr op (by rw [ArithmeticExpr.size]; omega)
      (by rw [ArithmeticExpr.size]; omega) s
  | conditional condition thenExpr elseExpr =>
    refine (hinner.smaller condition (by rw [ArithmeticExpr.size]; omega) s).bind fun c s' _ => ?_
    exact Settles.ite
      (fun _ => hinner.smaller thenExpr (by rw [ArithmeticExpr.size]; omega) s')
      fun _ => hinner.smaller elseExpr (by rw [ArithmeticExpr.size]; omega) s'
  | assignment lvalue rhs =>
    have hpos := size_pos lvalue
    refine (hinner.smaller rhs (by rw [ArithmeticExpr.size]; omega) s).bind fun value s' _ => ?_
    exact settles_assign hinner hup (by rw [ArithmeticExpr.size]; omega) value s'
  | unaryAssignment op lvalue =>
    exact settles_applyUnaryAssignmentOp hinner herr hup op (by rw [ArithmeticExpr.size]; omega) s
  | binaryAssignment op lvalue operand =>
    have hreference : (ArithmeticExpr.reference lvalue).size = 1 + lvalue.size := by
      rw [ArithmeticExpr.size]
    refine (settles_applyBinaryOp hinner herr op (by rw [hreference, ArithmeticExpr.size]; omega)
      (by rw [ArithmeticExpr.size]; omega) s).bind fun value s' _ => ?_
    exact settles_assign hinner hup (by rw [ArithmeticExpr.size]; omega) value s'

end

/-! ## The evaluation -/

section

variable [Casing]

omit [Casing] in
theorem updated_ne_outOfFuel (f : ShellEnvironment → Attempt ShellEnvironment Unit)
    (s : ArithShell) : (updated f s).1 ≠ .error .outOfFuel := by
  unfold updated
  split <;> nofun

theorem updatesFine_outOfFuel : UpdatesFine (· = .outOfFuel) where
  whole _ _ s e h := by
    rintro rfl
    exact updated_ne_outOfFuel _ s h
  element _ _ _ s e h := by
    rintro rfl
    exact updated_ne_outOfFuel _ s h

variable [Getters]

theorem recurses : Recurses (· = .outOfFuel) Below evalStep :=
  recurses_evalStep nofun updatesFine_outOfFuel

theorem evalStep_congr {f g : ArithmeticExpr × Nat → Eval Int64} {i : ArithmeticExpr × Nat}
    (h : ∀ j, Below j i → f j = g j) : evalStep f i = evalStep g i := by
  have hfine : UpdatesFine fun _ => False :=
    ⟨fun _ _ _ _ _ => not_false, fun _ _ _ _ _ _ => not_false⟩
  have hcalls : ∀ j, Below j i → ∀ s, Settles (fun _ => False) (fun _ => f j) (g j) s := by
    intro j hj s
    rw [h j hj]
    exact settles_const fun _ _ => not_false
  funext s
  obtain ⟨n, hn⟩ :=
    (recurses_evalStep (fun _ => not_false) hfine i (fun _ => f) g hcalls s).eventually
  exact hn n (Nat.le_refl n)

/-- `eval_expr_impl`: what its runs settle on. -/
noncomputable def evaluate : ArithmeticExpr × Nat → Eval Int64 :=
  fun i => limit fun n => evalFuel n i

theorem evaluate_eq : evaluate = evalStep evaluate :=
  funext fun i => limit_run wellFounded_below recurses i

theorem evaluate_apply (i : ArithmeticExpr × Nat) : evaluate i = evalStep evaluate i :=
  congrFun evaluate_eq i

theorem settles_evaluate (i : ArithmeticExpr × Nat) (s : ArithShell) :
    Settles (· = .outOfFuel) (fun n => evalFuel n i) (evaluate i) s :=
  settles_run wellFounded_below recurses i s

end

end Seahaven.Arithmetic
