import ShaderPass.Condition.Parse
import ShaderPass.Preprocess.Cause

/-!
# Preprocess/Condition — whether the condition of a group holds

A condition is read in three steps.  `defined`, with a name after it, becomes one or zero, by
whether the name has a macro; then the macros are replaced; then the names that are left count as
zero, but `true` as one, and what there is now has to be an expression.  A condition holds when the
value is not zero.
-/

namespace ShaderPass.Preprocess

open Macro (Token Table Origin)

/-- The tokens of a condition, all of them from the place of its directive. -/
def conditionTokens (origin : Origin) (text : String) : Except ConditionCause (List Token) :=
  match Lexeme.ofText text with
  | .ok lexemes => .ok (lexemes.map fun l => { l with origin, verbatim := false, hide := [] })
  | .error (fault, _) => .error (.lexeme fault)

/-- Tokens without the trivia they start with. -/
def skipTrivia (ts : List Token) : List Token := ts.dropWhile (·.isTrivia)

/-- The name after `defined`, which parentheses may enclose, and the tokens after it. -/
def definedName (ts : List Token) : Except ConditionCause (String × List Token) :=
  match skipTrivia ts with
  | [] => .error .definedWithoutName
  | t :: rest =>
    if t.isPunct '(' then
      match skipTrivia rest with
      | [] => .error .definedWithoutName
      | name :: rest =>
        if name.kind = .identifier then
          match skipTrivia rest with
          | [] => .error .definedWithoutClosing
          | closing :: rest =>
            if closing.isPunct ')' then .ok (name.text, rest) else .error .definedWithoutClosing
        else .error .definedWithoutName
    else if t.kind = .identifier then .ok (t.text, rest)
    else .error .definedWithoutName

theorem length_skipTrivia_le (ts : List Token) : (skipTrivia ts).length ≤ ts.length :=
  (List.dropWhile_sublist _).length_le

theorem length_definedName_lt {ts rest : List Token} {name : String}
    (h : definedName ts = .ok (name, rest)) : rest.length < ts.length := by
  have step : ∀ {us vs : List Token} {u : Token}, skipTrivia us = u :: vs →
      vs.length < us.length := by
    intro us vs u hu
    have := length_skipTrivia_le us
    rw [hu, List.length_cons] at this
    exact this
  unfold definedName at h
  split at h
  next => simp at h
  next t r₁ h₁ =>
    split at h
    next =>
      split at h
      next => simp at h
      next n r₂ h₂ =>
        split at h
        next =>
          split at h
          next => simp at h
          next c r₃ h₃ =>
            split at h
            next =>
              obtain ⟨_, rfl⟩ := Prod.mk.inj (Except.ok.inj h)
              exact Nat.lt_trans (step h₃) (Nat.lt_trans (step h₂) (step h₁))
            next => simp at h
        next => simp at h
    next =>
      split at h
      next =>
        obtain ⟨_, rfl⟩ := Prod.mk.inj (Except.ok.inj h)
        exact step h₁
      next => simp at h

/-- Tokens with one or zero in the place of each `defined` and its name. -/
def replaceDefined (macros : Table) (ts : List Token) : Except ConditionCause (List Token) :=
  match ts with
  | [] => .ok []
  | t :: ts =>
    if t.kind = .identifier ∧ t.text = "defined" then
      match _h : definedName ts with
      | .error cause => .error cause
      | .ok (name, rest) =>
        let value := if macros.isDefined name then "1" else "0"
        let number : Token := { t with kind := .number, text := value, verbatim := false, hide := [] }
        (replaceDefined macros rest).map (number :: ·)
    else (replaceDefined macros ts).map (t :: ·)
termination_by ts.length
decreasing_by
  · exact Nat.lt_succ_of_lt (length_definedName_lt _h)
  · exact Nat.lt_succ_self _

/-- What a token of a condition is to the expression. -/
def operandText (t : Token) : String :=
  if t.kind = .identifier then if t.text = "true" then "1" else "0"
  else if t.kind = .newline ∨ t.isTrivia then " "
  else t.text

/-- The text of the expression that the tokens of a condition make. -/
def expressionText (ts : List Token) : String := String.join (ts.map operandText)

/-- Whether a condition holds. -/
def conditionHolds (macros : Table) (origin : Origin) (text : String) :
    Except ConditionCause Bool := do
  let tokens ← conditionTokens origin text
  let tokens ← replaceDefined macros tokens
  match Macro.expand macros tokens with
  | .error (fault, _) => throw (.invocation fault)
  | .ok expanded =>
    match Condition.evaluate (expressionText expanded) with
    | .error fault => throw (.expression text fault)
    | .ok value => return value != 0

/-- Whether the first branch of a group is chosen. -/
def guardHolds (macros : Table) (origin : Origin) : Guard → Except ConditionCause Bool
  | .defined name => .ok (macros.isDefined name)
  | .undefined name => .ok (!macros.isDefined name)
  | .condition text => conditionHolds macros origin text

end ShaderPass.Preprocess
