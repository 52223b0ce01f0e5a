/-!
# Condition/Expr — the integer expressions of conditions, and their values

Values are 64-bit words in two's complement: sums and products wrap around, and a quotient is cut
off towards zero.  A comparison or a logical operation has the value one or zero.  The second
operand of `&&` and `||` counts only where the first does not decide, so that a division by zero
there does no harm.
-/

namespace ShaderPass.Condition

/-- The operators of one operand. -/
inductive UnaryOp
  | not
  | negate
  | plus
  | complement
  deriving DecidableEq, Repr

/-- The operators of two operands. -/
inductive BinaryOp
  | or
  | and
  | equal
  | notEqual
  | less
  | greater
  | lessEqual
  | greaterEqual
  | add
  | subtract
  | multiply
  | divide
  | remainder
  deriving DecidableEq, Repr

/-- How tightly an operator binds. -/
def BinaryOp.level : BinaryOp → Nat
  | .or => 0
  | .and => 1
  | .equal | .notEqual => 2
  | .less | .greater | .lessEqual | .greaterEqual => 3
  | .add | .subtract => 4
  | .multiply | .divide | .remainder => 5

/-- An expression. -/
inductive Expr
  | number (value : Int64)
  | unary (op : UnaryOp) (operand : Expr)
  | binary (op : BinaryOp) (left right : Expr)
  deriving DecidableEq, Repr

/-- What can be wrong with a condition. -/
inductive Fault
  | empty
  | unreadable (text : String)
  | divisionByZero
  deriving DecidableEq, Repr

/-- The wording of a fault. -/
def Fault.message : Fault → String
  | .empty => "empty expression"
  | .unreadable text => "cannot parse '" ++ text ++ "'"
  | .divisionByZero => "division by zero"

/-- The word for a truth value. -/
def truth (b : Bool) : Int64 := if b then 1 else 0

/-- The value of an operator of one operand. -/
def UnaryOp.apply : UnaryOp → Int64 → Int64
  | .not, a => truth (a == 0)
  | .negate, a => -a
  | .plus, a => a
  | .complement, a => ~~~a

/-- The value of an operator of two operands that are both needed. -/
def BinaryOp.apply : BinaryOp → Int64 → Int64 → Except Fault Int64
  | .or, a, b => .ok (truth (a != 0 || b != 0))
  | .and, a, b => .ok (truth (a != 0 && b != 0))
  | .equal, a, b => .ok (truth (a == b))
  | .notEqual, a, b => .ok (truth (a != b))
  | .less, a, b => .ok (truth (decide (a < b)))
  | .greater, a, b => .ok (truth (decide (b < a)))
  | .lessEqual, a, b => .ok (truth (decide (a ≤ b)))
  | .greaterEqual, a, b => .ok (truth (decide (b ≤ a)))
  | .add, a, b => .ok (a + b)
  | .subtract, a, b => .ok (a - b)
  | .multiply, a, b => .ok (a * b)
  | .divide, a, b => if b = 0 then .error .divisionByZero else .ok (a / b)
  | .remainder, a, b => if b = 0 then .error .divisionByZero else .ok (a % b)

/-- The value that the first operand decides on its own. -/
def BinaryOp.decided : BinaryOp → Int64 → Option Int64
  | .or, a => if a = 0 then none else some 1
  | .and, a => if a = 0 then some 0 else none
  | _, _ => none

/-- The value of an expression. -/
def Expr.eval : Expr → Except Fault Int64
  | .number value => .ok value
  | .unary op operand => operand.eval.map op.apply
  | .binary op left right =>
    match left.eval with
    | .error fault => .error fault
    | .ok a =>
      match op.decided a with
      | some value => .ok value
      | none =>
        match right.eval with
        | .error fault => .error fault
        | .ok b => op.apply a b

end ShaderPass.Condition
