import Mathlib
import ShaderPass.Condition.Expr

/-!
# Proofs/Condition/Value — the value of an expression

    1 / 0              divides by zero
    0 && 1 / 0         is 0: the division is not reached
    (-9223372036854775807 - 1) / -1      is 9223372036854775808, wrapped around to the least word

The values of an expression are taken here among the integers: each operator gives the integer that
it stands for (`UnaryOp.exact`, `BinaryOp.exact`), wrapped around to a word of 64 bits in two's
complement.  An expression divides by zero if a division that is reached does.  The words that `eval`
computes with have these values (`eval_eq_ok_iff`), and it fails in no other way
(`eval_eq_error_iff`).
-/

namespace ShaderPass.Condition

/-- The number of 64 bits in two's complement that an integer wraps around to. -/
def wrap (n : Int) : Int := n.bmod (2 ^ 64)

/-- What an operator of one operand gives among the integers. -/
def UnaryOp.exact : UnaryOp → Int → Int
  | .not, a => if a = 0 then 1 else 0
  | .negate, a => -a
  | .plus, a => a
  | .complement, a => -a - 1

/-- What an operator of two operands gives among the integers. -/
def BinaryOp.exact : BinaryOp → Int → Int → Int
  | .or, a, b => if a ≠ 0 ∨ b ≠ 0 then 1 else 0
  | .and, a, b => if a ≠ 0 ∧ b ≠ 0 then 1 else 0
  | .equal, a, b => if a = b then 1 else 0
  | .notEqual, a, b => if a ≠ b then 1 else 0
  | .less, a, b => if a < b then 1 else 0
  | .greater, a, b => if a > b then 1 else 0
  | .lessEqual, a, b => if a ≤ b then 1 else 0
  | .greaterEqual, a, b => if a ≥ b then 1 else 0
  | .add, a, b => a + b
  | .subtract, a, b => a - b
  | .multiply, a, b => a * b
  | .divide, a, b => a.tdiv b
  | .remainder, a, b => a.tmod b

/-- The operators that divide. -/
def BinaryOp.Divides (op : BinaryOp) : Prop := op = .divide ∨ op = .remainder

/-- The first operand gives the value, and the second does not count. -/
inductive BinaryOp.Decides : BinaryOp → Int → Int → Prop
  | or {a : Int} (nonzero : a ≠ 0) : Decides .or a 1
  | and : Decides .and 0 0

/-- The value of an expression. -/
inductive Value : Expr → Int → Prop
  | number (v : Int64) : Value (.number v) v.toInt
  | unary {op : UnaryOp} {e : Expr} {a : Int} (operand : Value e a) :
      Value (.unary op e) (wrap (op.exact a))
  | decided {op : BinaryOp} {l r : Expr} {a n : Int} (left : Value l a) (decides : op.Decides a n) :
      Value (.binary op l r) n
  | binary {op : BinaryOp} {l r : Expr} {a b : Int} (left : Value l a)
      (undecided : ∀ n, ¬ op.Decides a n) (right : Value r b) (divisor : op.Divides → b ≠ 0) :
      Value (.binary op l r) (wrap (op.exact a b))

/-- A division by zero is reached in an expression. -/
inductive DividesByZero : Expr → Prop
  | unary {op : UnaryOp} {e : Expr} (operand : DividesByZero e) : DividesByZero (.unary op e)
  | left {op : BinaryOp} {l r : Expr} (left : DividesByZero l) : DividesByZero (.binary op l r)
  | right {op : BinaryOp} {l r : Expr} {a : Int} (left : Value l a)
      (undecided : ∀ n, ¬ op.Decides a n) (right : DividesByZero r) : DividesByZero (.binary op l r)
  | here {op : BinaryOp} {l r : Expr} {a : Int} (left : Value l a) (right : Value r 0)
      (divides : op.Divides) : DividesByZero (.binary op l r)

variable {op : BinaryOp} {e l r : Expr} {v a b : Int64} {n : Int} {fault : Fault}

/-! ## Operators -/

/-- A word is not changed by wrapping it. -/
theorem wrap_toInt (v : Int64) : wrap v.toInt = v.toInt := v.toInt_bmod

theorem toInt_truth (p : Bool) : (truth p).toInt = if p = true then 1 else 0 := by cases p <;> rfl

theorem toInt_eq_zero_iff : a.toInt = 0 ↔ a = 0 := by rw [← Int64.toInt_zero, Int64.toInt_inj]

theorem wrap_ite (p : Prop) [Decidable p] : wrap (if p then 1 else 0) = if p then 1 else 0 := by
  split <;> rfl

/-- Unary operators are exact, up to wrapping. -/
theorem UnaryOp.toInt_apply (op : UnaryOp) (a : Int64) :
    (op.apply a).toInt = wrap (op.exact a.toInt) := by
  cases op with
  | not => simp only [apply, exact, toInt_truth, wrap_ite, beq_iff_eq, toInt_eq_zero_iff]
  | negate => exact a.toInt_neg
  | plus => exact (wrap_toInt a).symm
  | complement => exact a.toInt_not

theorem toInt_eq_one_iff : a.toInt = 1 ↔ a = 1 := by rw [← Int64.toInt_one, Int64.toInt_inj]

/-- `||` is decided by what is not zero, `&&` by zero. -/
theorem BinaryOp.decides_iff {m : Int} :
    op.Decides m n ↔ (op = .or ∧ m ≠ 0 ∧ n = 1) ∨ (op = .and ∧ m = 0 ∧ n = 0) := by
  constructor
  · rintro (hm | -)
    · exact .inl ⟨rfl, hm, rfl⟩
    · exact .inr ⟨rfl, rfl, rfl⟩
  · rintro (⟨rfl, hm, rfl⟩ | ⟨rfl, rfl, rfl⟩)
    · exact .or hm
    · exact .and

/-- What the left operand decides on words it decides on numbers. -/
theorem BinaryOp.decided_eq_some_iff : op.decided a = some v ↔ op.Decides a.toInt v.toInt := by
  rw [decides_iff]
  cases op
  case or | and => simp [decided, toInt_eq_zero_iff, toInt_eq_one_iff, eq_comm]
  all_goals simp [decided]

theorem BinaryOp.decided_eq_none_iff : op.decided a = none ↔ ∀ n, ¬ op.Decides a.toInt n := by
  simp only [decides_iff]
  cases op
  case or | and => simp [decided, toInt_eq_zero_iff]
  all_goals simp [decided]

/-- Binary operators are exact, up to wrapping, but for divisions by zero. -/
theorem BinaryOp.apply_eq_ok (h : op.Divides → b.toInt ≠ 0) :
    ∃ c, op.apply a b = .ok c ∧ c.toInt = wrap (op.exact a.toInt b.toInt) := by
  have hdivides (hop : op.Divides) : b ≠ 0 := fun hb => h hop (toInt_eq_zero_iff.2 hb)
  cases op with
  | divide =>
    refine ⟨a / b, if_neg (hdivides (.inl rfl)), a.toInt_div b⟩
  | remainder =>
    refine ⟨a % b, if_neg (hdivides (.inr rfl)), ?_⟩
    rw [exact, ← Int64.toInt_mod, wrap_toInt]
  | add => exact ⟨_, rfl, a.toInt_add b⟩
  | subtract => exact ⟨_, rfl, a.toInt_sub b⟩
  | multiply => exact ⟨_, rfl, a.toInt_mul b⟩
  | _ =>
    refine ⟨_, rfl, ?_⟩
    rw [exact, wrap_ite]
    simp [toInt_truth, toInt_eq_zero_iff, Int64.toInt_inj, Int64.lt_iff_toInt_lt,
      Int64.le_iff_toInt_le]

theorem BinaryOp.apply_zero (h : op.Divides) : op.apply a 0 = .error .divisionByZero := by
  obtain rfl | rfl := h <;> rfl

/-! ## Expressions -/

/-- **An expression with a value evaluates to it.** -/
theorem Value.eval (h : Value e n) : ∃ v, e.eval = .ok v ∧ v.toInt = n := by
  induction h with
  | number v => exact ⟨v, rfl, rfl⟩
  | @unary op e a _ ih =>
    obtain ⟨v, hv, rfl⟩ := ih
    exact ⟨op.apply v, by rw [Expr.eval, hv]; rfl, op.toInt_apply v⟩
  | @decided op l r a n _ hdecides ih =>
    obtain ⟨v, hv, rfl⟩ := ih
    obtain ⟨u, rfl⟩ : ∃ u : Int64, u.toInt = n := by
      obtain ⟨-, -, rfl⟩ | ⟨-, -, rfl⟩ := BinaryOp.decides_iff.1 hdecides
      · exact ⟨1, rfl⟩
      · exact ⟨0, rfl⟩
    refine ⟨u, ?_, rfl⟩
    rw [Expr.eval, hv]
    dsimp only
    rw [BinaryOp.decided_eq_some_iff.2 hdecides]
  | binary _ hundecided _ hdivisor ihl ihr =>
    obtain ⟨u, hu, rfl⟩ := ihl
    obtain ⟨v, hv, rfl⟩ := ihr
    obtain ⟨c, hc, hvalue⟩ := BinaryOp.apply_eq_ok hdivisor
    refine ⟨c, ?_, hvalue⟩
    rw [Expr.eval, hu]
    dsimp only
    rw [BinaryOp.decided_eq_none_iff.2 hundecided]
    dsimp only
    rw [hv]
    exact hc

/-- **An expression that divides by zero has no value.** -/
theorem DividesByZero.eval (h : DividesByZero e) : e.eval = .error .divisionByZero := by
  induction h with
  | unary _ ih =>
    rw [Expr.eval, ih]
    rfl
  | left _ ih => rw [Expr.eval, ih]
  | right hl hundecided _ ih =>
    obtain ⟨u, hu, rfl⟩ := hl.eval
    rw [Expr.eval, hu]
    dsimp only
    rw [BinaryOp.decided_eq_none_iff.2 hundecided]
    dsimp only
    rw [ih]
  | @here op l r a hl hr hdivides =>
    obtain ⟨u, hu, rfl⟩ := hl.eval
    obtain ⟨v, hv, hzero⟩ := hr.eval
    obtain rfl := toInt_eq_zero_iff.1 hzero
    have hundecided : op.decided u = none := by obtain rfl | rfl := hdivides <;> rfl
    rw [Expr.eval, hu]
    dsimp only
    rw [hundecided]
    dsimp only
    rw [hv]
    exact BinaryOp.apply_zero hdivides

/-- Evaluation follows the values of the parts, and fails only where a division by zero is reached. -/
theorem eval_spec (e : Expr) : match e.eval with
    | .ok v => Value e v.toInt
    | .error fault => fault = .divisionByZero ∧ DividesByZero e := by
  induction e with
  | number v => exact .number v
  | unary op e ih =>
    rw [Expr.eval]
    cases he : e.eval with
    | error fault =>
      rw [he] at ih
      exact ⟨ih.1, .unary ih.2⟩
    | ok v =>
      rw [he] at ih
      show Value _ (op.apply v).toInt
      rw [op.toInt_apply]
      exact .unary ih
  | binary op l r ihl ihr =>
    rw [Expr.eval]
    cases hl : l.eval with
    | error fault =>
      rw [hl] at ihl
      exact ⟨ihl.1, .left ihl.2⟩
    | ok a =>
      rw [hl] at ihl
      dsimp only at ihl ⊢
      cases hdecided : op.decided a with
      | some v => exact .decided ihl (BinaryOp.decided_eq_some_iff.1 hdecided)
      | none =>
        have hundecided := BinaryOp.decided_eq_none_iff.1 hdecided
        cases hr : r.eval with
        | error fault =>
          rw [hr] at ihr
          exact ⟨ihr.1, .right ihl hundecided ihr.2⟩
        | ok b =>
          rw [hr] at ihr
          dsimp only at ihr ⊢
          by_cases hdivisor : op.Divides → b.toInt ≠ 0
          · obtain ⟨c, hc, hvalue⟩ := BinaryOp.apply_eq_ok hdivisor
            rw [hc]
            show Value _ c.toInt
            rw [hvalue]
            exact .binary ihl hundecided ihr hdivisor
          · obtain ⟨hdivides, hzero⟩ : op.Divides ∧ b.toInt = 0 := by simpa using hdivisor
            rw [hzero] at ihr
            obtain rfl := toInt_eq_zero_iff.1 hzero
            rw [BinaryOp.apply_zero hdivides]
            exact ⟨rfl, .here ihl ihr hdivides⟩

/-- **An expression evaluates to its value.** -/
theorem eval_eq_ok_iff : e.eval = .ok v ↔ Value e v.toInt := by
  constructor
  · intro h
    have := eval_spec e
    rwa [h] at this
  · intro h
    obtain ⟨u, hu, heq⟩ := h.eval
    rw [hu, Int64.toInt_inj.1 heq]

/-- **Evaluation fails exactly when a division by zero is reached.** -/
theorem eval_eq_error_iff :
    e.eval = .error fault ↔ fault = .divisionByZero ∧ DividesByZero e := by
  constructor
  · intro h
    have := eval_spec e
    rwa [h] at this
  · rintro ⟨rfl, h⟩
    exact h.eval

end ShaderPass.Condition
