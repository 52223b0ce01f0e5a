import ShaderPass.Number.Digits
import ShaderPass.Condition.Expr

/-!
# Condition/Token — the numbers and symbols of a condition

A number is decimal, octal after a leading zero, or hexadecimal after `0x`, with one suffix `u` in
either case allowed; it has to fit a 64-bit word as a number that is not negative.  Of two symbols
that start alike the longer is read.  Spaces, tabs and line ends separate and mean nothing else.
-/

namespace ShaderPass.Condition

/-- The symbols: parentheses, and what operators are written with. -/
inductive Symbol
  | opening
  | closing
  | bang
  | tilde
  | plus
  | minus
  | star
  | slash
  | percent
  | barBar
  | ampAmp
  | equalEqual
  | bangEqual
  | less
  | greater
  | lessEqual
  | greaterEqual
  deriving DecidableEq, Repr

/-- A number or a symbol. -/
inductive Token
  | number (value : Int64)
  | symbol (s : Symbol)
  deriving DecidableEq, Repr

/-- The operator of one operand that a symbol writes. -/
def Symbol.unary? : Symbol → Option UnaryOp
  | .bang => some .not
  | .minus => some .negate
  | .plus => some .plus
  | .tilde => some .complement
  | _ => none

/-- The operator of two operands that a symbol writes. -/
def Symbol.binary? : Symbol → Option BinaryOp
  | .barBar => some .or
  | .ampAmp => some .and
  | .equalEqual => some .equal
  | .bangEqual => some .notEqual
  | .less => some .less
  | .greater => some .greater
  | .lessEqual => some .lessEqual
  | .greaterEqual => some .greaterEqual
  | .plus => some .add
  | .minus => some .subtract
  | .star => some .multiply
  | .slash => some .divide
  | .percent => some .remainder
  | _ => none

/-- Whether a character only separates tokens. -/
def isSpace (c : Char) : Bool := c == ' ' || c == '\t' || c == '\r' || c == '\n'

/-- The first number too large for a literal. -/
def literalBound : Nat := 0x8000000000000000

/-- The digits of a literal and what follows them, with the number the digits write. -/
def readDigits : List Char → Option Nat × List Char
  | '0' :: 'x' :: text => readIn 16 Number.isHexDigit text
  | '0' :: 'X' :: text => readIn 16 Number.isHexDigit text
  | '0' :: c :: text =>
    if c.isDigit then readIn 8 Char.isDigit (c :: text) else (some 0, c :: text)
  | text => readIn 10 Char.isDigit text
where
  /-- The digits of one base at the front of a text. -/
  readIn (base : Nat) (isDigit : Char → Bool) (text : List Char) : Option Nat × List Char :=
    (Number.ofDigitsBelow literalBound base (text.takeWhile isDigit), text.dropWhile isDigit)

/-- A text without the suffix it may start with. -/
def dropSuffix : List Char → List Char
  | 'u' :: text => text
  | 'U' :: text => text
  | text => text

/-- The symbol at the front of a text, and what follows it. -/
def readSymbol : List Char → Option (Symbol × List Char)
  | '|' :: '|' :: text => some (.barBar, text)
  | '&' :: '&' :: text => some (.ampAmp, text)
  | '=' :: '=' :: text => some (.equalEqual, text)
  | '!' :: '=' :: text => some (.bangEqual, text)
  | '<' :: '=' :: text => some (.lessEqual, text)
  | '>' :: '=' :: text => some (.greaterEqual, text)
  | '<' :: text => some (.less, text)
  | '>' :: text => some (.greater, text)
  | '!' :: text => some (.bang, text)
  | '~' :: text => some (.tilde, text)
  | '+' :: text => some (.plus, text)
  | '-' :: text => some (.minus, text)
  | '*' :: text => some (.star, text)
  | '/' :: text => some (.slash, text)
  | '%' :: text => some (.percent, text)
  | '(' :: text => some (.opening, text)
  | ')' :: text => some (.closing, text)
  | _ => none

theorem length_readIn_le (base : Nat) (isDigit : Char → Bool) (text : List Char) :
    (readDigits.readIn base isDigit text).2.length ≤ text.length :=
  (List.dropWhile_sublist isDigit).length_le

theorem length_dropSuffix_le (text : List Char) : (dropSuffix text).length ≤ text.length := by
  unfold dropSuffix; split <;> simp

theorem length_readDigits_lt {c : Char} {text : List Char} (h : c.isDigit = true) :
    (readDigits (c :: text)).2.length < (c :: text).length := by
  unfold readDigits
  split
  next rest heq =>
    obtain ⟨rfl, rfl⟩ := List.cons.inj heq
    exact Nat.lt_succ_of_lt (Nat.lt_succ_of_le (length_readIn_le 16 Number.isHexDigit rest))
  next rest heq =>
    obtain ⟨rfl, rfl⟩ := List.cons.inj heq
    exact Nat.lt_succ_of_lt (Nat.lt_succ_of_le (length_readIn_le 16 Number.isHexDigit rest))
  next d rest _ _ heq =>
    obtain ⟨rfl, rfl⟩ := List.cons.inj heq
    split
    next => exact Nat.lt_succ_of_le (length_readIn_le 8 Char.isDigit (d :: rest))
    next => exact Nat.lt_succ_self _
  next =>
    rw [readDigits.readIn, List.dropWhile_cons, if_pos h]
    exact Nat.lt_succ_of_le (List.dropWhile_sublist Char.isDigit).length_le

theorem length_readSymbol_lt {text rest : List Char} {s : Symbol}
    (h : readSymbol text = some (s, rest)) : rest.length < text.length := by
  unfold readSymbol at h
  split at h <;> simp only [Option.some.injEq, Prod.mk.injEq, reduceCtorEq] at h <;>
    obtain ⟨_, rfl⟩ := h <;> simp only [List.length_cons] <;> omega

/-- The tokens of a text; `none` if some part of it is no token. -/
def tokens (text : List Char) : Option (List Token) :=
  match text with
  | [] => some []
  | c :: cs =>
    if isSpace c then tokens cs
    else if _hc : c.isDigit = true then
      match (readDigits (c :: cs)).1 with
      | some n =>
        (tokens (dropSuffix (readDigits (c :: cs)).2)).map (.number (Int64.ofNat n) :: ·)
      | none => none
    else
      match _hs : readSymbol (c :: cs) with
      | some (s, rest) => (tokens rest).map (.symbol s :: ·)
      | none => none
termination_by text.length
decreasing_by
  · simp
  · exact Nat.lt_of_le_of_lt (length_dropSuffix_le _) (length_readDigits_lt _hc)
  · exact length_readSymbol_lt _hs

end ShaderPass.Condition
