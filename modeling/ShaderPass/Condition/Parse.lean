import ShaderPass.Text.Blank
import ShaderPass.Condition.Token

/-!
# Condition/Parse — the expression that a condition writes

Operators of two operands bind by their level and, on one level, from the left; those of one
operand bind tightest and can be repeated.  `parseFrom level` reads an expression whose outermost
operators bind at least as tightly as `level`, and gives the tokens after it with the proof that it
used some, which is what the recursion descends on.
-/

namespace ShaderPass.Condition

/-- The level of expressions without an operator of two operands outside parentheses. -/
def unaryLevel : Nat := 6

mutual

/-- An expression with operators of `level` or tighter, and the tokens after it. -/
def parseFrom (level : Nat) (ts : List Token) :
    Option (Expr × { rest : List Token // rest.length < ts.length }) :=
  if level < unaryLevel then
    match parseFrom (level + 1) ts with
    | none => none
    | some (first, ⟨rest, h⟩) =>
      match extend level first rest with
      | none => none
      | some (e, ⟨rest', h'⟩) => some (e, ⟨rest', Nat.lt_of_le_of_lt h' h⟩)
  else
    match ts with
    | .number value :: rest => some (.number value, ⟨rest, Nat.lt_succ_self _⟩)
    | .symbol s :: rest =>
      match s.unary? with
      | some op =>
        match parseFrom level rest with
        | none => none
        | some (e, ⟨rest', h⟩) => some (.unary op e, ⟨rest', Nat.lt_succ_of_lt h⟩)
      | none =>
        if s = .opening then
          match parseFrom 0 rest with
          | some (e, ⟨.symbol .closing :: rest', h⟩) =>
            some (e, ⟨rest', Nat.lt_succ_of_lt (Nat.lt_of_succ_lt h)⟩)
          | _ => none
        else none
    | [] => none
termination_by (ts.length, unaryLevel + 1 - level)

/-- The operators of exactly `level` that go on from `left`, each with its second operand, and the
tokens after them. -/
def extend (level : Nat) (left : Expr) (ts : List Token) :
    Option (Expr × { rest : List Token // rest.length ≤ ts.length }) :=
  match ts with
  | .symbol s :: rest =>
    match s.binary? with
    | some op =>
      if op.level = level then
        match parseFrom (level + 1) rest with
        | none => none
        | some (right, ⟨rest', h⟩) =>
          match extend level (.binary op left right) rest' with
          | none => none
          | some (e, ⟨rest'', h'⟩) => some (e, ⟨rest'', by simp only [List.length_cons]; omega⟩)
      else some (left, ⟨.symbol s :: rest, Nat.le_refl _⟩)
    | none => some (left, ⟨.symbol s :: rest, Nat.le_refl _⟩)
  | ts => some (left, ⟨ts, Nat.le_refl _⟩)
termination_by (ts.length, 0)

end

/-- The expression that some tokens write when taken together. -/
def parseTokens (ts : List Token) : Option Expr :=
  match parseFrom 0 ts with
  | some (e, ⟨[], _⟩) => some e
  | _ => none

/-- The expression that a text writes. -/
def parse (text : String) : Except Fault Expr :=
  match (tokens text.toList).bind parseTokens with
  | some e => .ok e
  | none =>
    if Text.trim text = "" then .error .empty else .error (.unreadable (Text.trim text))

/-- The value of the expression that a text writes. -/
def evaluate (text : String) : Except Fault Int64 :=
  match parse text with
  | .ok e => e.eval
  | .error fault => .error fault

end ShaderPass.Condition
