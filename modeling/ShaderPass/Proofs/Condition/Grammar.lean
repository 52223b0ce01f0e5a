import Mathlib.Data.Nat.Digits.Defs
import ShaderPass.Condition.Token

/-!
# Proofs/Condition/Grammar — what an expression is written as

    level 0      ||
    level 1      &&
    level 2      == !=
    level 3      < > <= >=
    level 4      + -
    level 5      * / %
    level 6      number   ( level 0 )   ! - + ~ before level 6

`Writes w k e as` says that `as` writes the expression `e` at level `k`: an operator of two operands
takes its left operand from its own level and its right one from the next, so that those of one
level group from the left.  What numbers and symbols are spelled with is left open (`Spelling`).
The same grammar then speaks of the characters of a text (`textSpelling`), of the tokens of a
condition (`tokenSpelling`), or of anything that stands for them.

That `as` writes `e` is the same as that some tokens write `e` and that `as` spells them one after
the other (`writes_iff_spelled`).
-/

namespace ShaderPass.Condition

/-- What a symbol looks like. -/
def Symbol.text : Symbol → String
  | .opening => "("
  | .closing => ")"
  | .bang => "!"
  | .tilde => "~"
  | .plus => "+"
  | .minus => "-"
  | .star => "*"
  | .slash => "/"
  | .percent => "%"
  | .barBar => "||"
  | .ampAmp => "&&"
  | .equalEqual => "=="
  | .bangEqual => "!="
  | .less => "<"
  | .greater => ">"
  | .lessEqual => "<="
  | .greaterEqual => ">="

/-- The symbols for operators of two operands, level by level. -/
def binarySymbols : List (List (Symbol × BinaryOp)) :=
  [[(.barBar, .or)],
   [(.ampAmp, .and)],
   [(.equalEqual, .equal), (.bangEqual, .notEqual)],
   [(.less, .less), (.greater, .greater), (.lessEqual, .lessEqual), (.greaterEqual, .greaterEqual)],
   [(.plus, .add), (.minus, .subtract)],
   [(.star, .multiply), (.slash, .divide), (.percent, .remainder)]]

/-- The symbols for operators of one operand. -/
def unarySymbols : List (Symbol × UnaryOp) :=
  [(.bang, .not), (.minus, .negate), (.plus, .plus), (.tilde, .complement)]

/-- What the tokens of an expression are spelled with. -/
structure Spelling (α : Type) where
  /-- What spells a token. -/
  token : Token → List α → Prop
  /-- What may stand before, between and after tokens. -/
  blank : α → Prop

variable {α : Type}

/-- What writes an expression whose outermost operators bind at least as tightly as a level. -/
inductive Writes (w : Spelling α) : Nat → Expr → List α → Prop
  | number {n : Int64} {as : List α} (token : w.token (.number n) as) : Writes w 6 (.number n) as
  | parenthesized {e : Expr} {as bs cs : List α} (opening : w.token (.symbol .opening) as)
      (inner : Writes w 0 e bs) (closing : w.token (.symbol .closing) cs) :
      Writes w 6 e (as ++ bs ++ cs)
  | unary {s : Symbol} {op : UnaryOp} {e : Expr} {as bs : List α} (mem : (s, op) ∈ unarySymbols)
      (symbol : w.token (.symbol s) as) (operand : Writes w 6 e bs) :
      Writes w 6 (.unary op e) (as ++ bs)
  | binary {k : Nat} {s : Symbol} {op : BinaryOp} {l r : Expr} {as bs cs : List α}
      (mem : (s, op) ∈ binarySymbols.getD k []) (left : Writes w k l as)
      (symbol : w.token (.symbol s) bs) (right : Writes w (k + 1) r cs) :
      Writes w k (.binary op l r) (as ++ bs ++ cs)
  | tighter {k : Nat} {e : Expr} {as : List α} (writes : Writes w (k + 1) e as) : Writes w k e as
  | blankBefore {k : Nat} {e : Expr} {a : α} {as : List α} (blank : w.blank a)
      (writes : Writes w k e as) : Writes w k e (a :: as)
  | blankAfter {k : Nat} {e : Expr} {a : α} {as : List α} (blank : w.blank a)
      (writes : Writes w k e as) : Writes w k e (as ++ [a])

/-! ## Spellings -/

/-- Some digits write a number in a base: `A` and `a` are both the digit ten. -/
def IsNumeral (base n : Nat) (cs : List Char) : Prop :=
  cs ≠ [] ∧ ∃ digits : List Nat, (∀ d ∈ digits, d < base) ∧
    cs.map Char.toLower = digits.map Nat.digitChar ∧ n = Nat.ofDigits base digits.reverse

/-- A literal without its suffix. -/
inductive Unsuffixed : Nat → List Char → Prop
  | decimal {n : Nat} {c : Char} {cs : List Char} (first : c ≠ '0') (numeral : IsNumeral 10 n (c :: cs)) :
      Unsuffixed n (c :: cs)
  | zero : Unsuffixed 0 ['0']
  | octal {n : Nat} {cs : List Char} (numeral : IsNumeral 8 n cs) : Unsuffixed n ('0' :: cs)
  | hexadecimal {n : Nat} {x : Char} {cs : List Char} (mark : x = 'x' ∨ x = 'X')
      (numeral : IsNumeral 16 n cs) : Unsuffixed n ('0' :: x :: cs)

/-- A literal that fits a 64-bit word as a number that is not negative. -/
def IsLiteral (v : Int64) (cs : List Char) : Prop :=
  ∃ (n : Nat) (body suffix : List Char), cs = body ++ suffix ∧ Unsuffixed n body ∧
    suffix ∈ [[], ['u'], ['U']] ∧ v.toInt = n

/-- The expressions that the characters of a text write. -/
def textSpelling : Spelling Char where
  token
    | .number v, cs => IsLiteral v cs
    | .symbol s, cs => cs = s.text.toList
  blank c := c ∈ [' ', '\t', '\r', '\n']

/-- The expressions that the tokens of a condition write. -/
def tokenSpelling : Spelling Token where
  token t us := us = [t]
  blank _ := False

/-! ## Spelling tokens one after the other -/

/-- Some tokens are spelled, one after the other, with blanks anywhere around them. -/
inductive Spelled (w : Spelling α) : List Token → List α → Prop
  | nil : Spelled w [] []
  | blank {ts : List Token} {a : α} {as : List α} (blank : w.blank a) (rest : Spelled w ts as) :
      Spelled w ts (a :: as)
  | token {t : Token} {ts : List Token} {as bs : List α} (token : w.token t as)
      (rest : Spelled w ts bs) : Spelled w (t :: ts) (as ++ bs)

variable {w : Spelling α} {k : Nat} {e : Expr} {t : Token} {ts us : List Token} {as bs cs : List α}

namespace Spelled

/-- Spellings stand one after the other. -/
theorem append (hts : Spelled w ts as) (hus : Spelled w us bs) :
    Spelled w (ts ++ us) (as ++ bs) := by
  induction hts with
  | nil => exact hus
  | blank h _ ih => exact .blank h ih
  | token h _ ih => rw [List.append_assoc]; exact .token h ih

theorem singleton (h : w.token t as) : Spelled w [t] as := by
  simpa using Spelled.token h .nil

theorem blanks (h : ∀ a ∈ as, w.blank a) : Spelled w [] as := by
  induction as with
  | nil => exact .nil
  | cons a as ih =>
    rw [List.forall_mem_cons] at h
    exact .blank h.1 (ih h.2)

theorem blank_of_nil (h : Spelled w [] as) : ∀ a ∈ as, w.blank a := by
  generalize hts : ([] : List Token) = ts at h
  induction h with
  | nil => simp
  | blank hb _ ih => exact List.forall_mem_cons.2 ⟨hb, ih hts⟩
  | token => cases hts

/-- What spells a first token and others: blanks, the first token, and the others. -/
theorem of_cons (h : Spelled w (t :: ts) cs) :
    ∃ bs as ds, cs = bs ++ as ++ ds ∧ (∀ b ∈ bs, w.blank b) ∧ w.token t as ∧ Spelled w ts ds := by
  generalize hts : t :: ts = us at h
  induction h with
  | nil => cases hts
  | blank hb _ ih =>
    obtain ⟨bs, as, ds, rfl, hbs, hrest⟩ := ih hts
    exact ⟨_ :: bs, as, ds, by simp, List.forall_mem_cons.2 ⟨hb, hbs⟩, hrest⟩
  | token ht hrest _ =>
    obtain ⟨rfl, rfl⟩ := List.cons.inj hts
    exact ⟨[], _, _, rfl, by simp, ht, hrest⟩

/-- What spells tokens after others comes after what spells the others. -/
theorem of_append (h : Spelled w (ts ++ us) cs) :
    ∃ as bs, cs = as ++ bs ∧ Spelled w ts as ∧ Spelled w us bs := by
  induction ts generalizing cs with
  | nil => exact ⟨[], cs, rfl, .nil, h⟩
  | cons t ts ih =>
    obtain ⟨as, bs, ds, rfl, hblank, ht, hrest⟩ := h.of_cons
    obtain ⟨ds, fs, rfl, hts, hus⟩ := ih hrest
    refine ⟨as ++ bs ++ ds, fs, by simp, ?_, hus⟩
    rw [List.append_assoc]
    exact (blanks hblank).append (.token ht hts)

end Spelled

namespace Writes

/-- What writes an expression of a level writes one of all levels below. -/
theorem loosen {n : Nat} (h : Writes w (k + n) e as) : Writes w k e as := by
  induction n with
  | zero => exact h
  | succ n ih => exact ih (.tighter h)

theorem blanksBefore (hbs : ∀ b ∈ bs, w.blank b) (h : Writes w k e as) : Writes w k e (bs ++ as) := by
  induction bs with
  | nil => exact h
  | cons b bs ih =>
    rw [List.forall_mem_cons] at hbs
    exact .blankBefore hbs.1 (ih hbs.2)

theorem blanksAfter (hbs : ∀ b ∈ bs, w.blank b) (h : Writes w k e as) : Writes w k e (as ++ bs) := by
  induction bs generalizing as with
  | nil => rwa [List.append_nil]
  | cons b bs ih =>
    rw [List.forall_mem_cons] at hbs
    rw [← List.singleton_append, ← List.append_assoc]
    exact ih hbs.2 (.blankAfter hbs.1 h)

/-- What is put in the place of what writes an expression writes it too, if it spells the same tokens
and has blanks for blanks. -/
theorem flatMap {β : Type} {w' : Spelling β} (f : α → List β)
    (htoken : ∀ t as, w.token t as → w'.token t (as.flatMap f))
    (hblank : ∀ a, w.blank a → ∀ b ∈ f a, w'.blank b) (h : Writes w k e as) :
    Writes w' k e (as.flatMap f) := by
  induction h with
  | number ht => exact .number (htoken _ _ ht)
  | parenthesized ho _ hc ih =>
    rw [List.flatMap_append, List.flatMap_append]
    exact .parenthesized (htoken _ _ ho) ih (htoken _ _ hc)
  | unary hmem hs _ ih =>
    rw [List.flatMap_append]
    exact .unary hmem (htoken _ _ hs) ih
  | binary hmem _ hs _ ihl ihr =>
    rw [List.flatMap_append, List.flatMap_append]
    exact .binary hmem ihl (htoken _ _ hs) ihr
  | tighter _ ih => exact .tighter ih
  | @blankBefore _ _ a _ hb _ ih => exact blanksBefore (hblank a hb) ih
  | @blankAfter _ _ a _ hb _ ih =>
    rw [List.flatMap_append, List.flatMap_singleton]
    exact blanksAfter (hblank a hb) ih

theorem tokens_of (h : Writes w k e as) : ∃ ts, Writes tokenSpelling k e ts ∧ Spelled w ts as := by
  induction h with
  | number ht => exact ⟨_, .number rfl, .singleton ht⟩
  | parenthesized ho _ hc ih =>
    obtain ⟨ts, hts, hspelled⟩ := ih
    exact ⟨_, .parenthesized rfl hts rfl, ((Spelled.singleton ho).append hspelled).append (.singleton hc)⟩
  | unary hmem hs _ ih =>
    obtain ⟨ts, hts, hspelled⟩ := ih
    exact ⟨_, .unary hmem rfl hts, (Spelled.singleton hs).append hspelled⟩
  | binary hmem _ hs _ ihl ihr =>
    obtain ⟨ls, hls, hlspelled⟩ := ihl
    obtain ⟨rs, hrs, hrspelled⟩ := ihr
    exact ⟨_, .binary hmem hls rfl hrs, (hlspelled.append (.singleton hs)).append hrspelled⟩
  | tighter _ ih =>
    obtain ⟨ts, hts, hspelled⟩ := ih
    exact ⟨ts, .tighter hts, hspelled⟩
  | blankBefore hb _ ih =>
    obtain ⟨ts, hts, hspelled⟩ := ih
    exact ⟨ts, hts, .blank hb hspelled⟩
  | blankAfter hb _ ih =>
    obtain ⟨ts, hts, hspelled⟩ := ih
    refine ⟨ts, hts, ?_⟩
    simpa using hspelled.append (.blank hb .nil)

/-- What spells tokens that write an expression writes it itself: the blanks around a token go with
the expression that the token is in. -/
theorem of_tokens (h : Writes tokenSpelling k e ts) (has : Spelled w ts as) : Writes w k e as := by
  induction h generalizing as with
  | number ht =>
    cases ht
    obtain ⟨bs, cs, ds, rfl, hbs, ht, hds⟩ := has.of_cons
    exact .blanksAfter hds.blank_of_nil (.blanksBefore hbs (.number ht))
  | parenthesized ho _ hc ih =>
    cases ho
    cases hc
    obtain ⟨as, zs, rfl, hinner, hclosing⟩ := has.of_append
    obtain ⟨bs, cs, ds, rfl, hbs, ho, hds⟩ := hinner.of_cons
    obtain ⟨xs, ys, zs, rfl, hxs, hc, hzs⟩ := hclosing.of_cons
    have h := Writes.parenthesized ho (.blanksAfter hxs (ih hds)) hc
    simpa using (h.blanksBefore hbs).blanksAfter hzs.blank_of_nil
  | unary hmem hs _ ih =>
    cases hs
    obtain ⟨bs, cs, ds, rfl, hbs, hs, hds⟩ := has.of_cons
    rw [List.append_assoc]
    exact .blanksBefore hbs (.unary hmem hs (ih hds))
  | binary hmem _ hs _ ihl ihr =>
    cases hs
    obtain ⟨front, ds, rfl, hfront, hright⟩ := has.of_append
    obtain ⟨as, mid, rfl, hleft, hsymbol⟩ := hfront.of_append
    obtain ⟨bs, cs, zs, rfl, hbs, hs, hzs⟩ := hsymbol.of_cons
    have h := Writes.binary hmem (.blanksAfter hbs (ihl hleft)) hs
      (.blanksBefore hzs.blank_of_nil (ihr hright))
    simpa using h
  | tighter _ ih => exact .tighter (ih has)
  | blankBefore hb => exact hb.elim
  | blankAfter hb => exact hb.elim

end Writes

/-- **To write an expression is to spell tokens that write it.** -/
theorem writes_iff_spelled :
    Writes w k e as ↔ ∃ ts, Writes tokenSpelling k e ts ∧ Spelled w ts as :=
  ⟨Writes.tokens_of, fun ⟨_, hts, has⟩ => .of_tokens hts has⟩

end ShaderPass.Condition
