import ShaderPass.Lexeme.Basic

/-!
# Lexeme/Form — how far each lexical form reaches

Each form is given by a function that measures a text: the number of characters the form takes off
the front, or zero where the text does not start with it.  `form` asks them in order and takes the
first that matches; a character that starts no form is punctuation on its own.  A measured piece is
never empty and never longer than the text (`form_pos`, `form_le`), so that reading a lexeme always
makes progress.
-/

namespace ShaderPass.Lexeme.Form

/-- The number of characters at the front that satisfy `p`. -/
def run (p : Char → Bool) (text : List Char) : Nat := (text.takeWhile p).length

/-- A line ends with a line feed, which a carriage return may precede. -/
def newline : List Char → Nat
  | '\r' :: '\n' :: _ => 2
  | '\n' :: _ => 1
  | _ => 0

/-- Blank space within a line: a carriage return on its own counts, a line feed does not. -/
def isSpace (c : Char) : Bool :=
  c == ' ' || c == '\t' || c == '\r' || c == '\x0b' || c == '\x0c'

/-- White space is a run of blank space within a line. -/
def whitespace (text : List Char) : Nat := run isSpace text

/-- A line comment reaches up to the line feed. -/
def lineComment : List Char → Nat
  | '/' :: '/' :: text => 2 + run (· != '\n') text
  | _ => 0

/-- The number of characters up to and including the first `*/`. -/
def commentClose : List Char → Option Nat
  | '*' :: '/' :: _ => some 2
  | _ :: text => (commentClose text).map (· + 1)
  | [] => none

/-- A block comment reaches through the first `*/` after its opening. -/
def blockComment : List Char → Nat
  | '/' :: '*' :: text =>
    match commentClose text with
    | some n => n + 2
    | none => 0
  | _ => 0

/-- The characters an identifier can start with. -/
def isIdentifierStart (c : Char) : Bool := c.isAlpha || c == '_'

/-- The characters an identifier can go on with. -/
def isIdentifierPart (c : Char) : Bool := c.isAlphanum || c == '_'

/-- An identifier is a letter or underscore and what goes on from it, in ASCII. -/
def identifier : List Char → Nat
  | c :: text => if isIdentifierStart c then run isIdentifierPart text + 1 else 0
  | [] => 0

/-- Whether a sign belongs to the number because it follows this exponent letter. -/
def isExponentSign (e sign : Char) : Bool := (e == 'e' || e == 'E') && (sign == '+' || sign == '-')

/-- The characters a number can go on with. -/
def isNumberPart (c : Char) : Bool := c.isAlphanum || c == '.' || c == '_'

/-- What goes on from the first digit of a number: letters, digits, dots and underscores, and a
sign after an exponent letter. -/
def numberTail : List Char → Nat
  | [] => 0
  | [c] => if isNumberPart c then 1 else 0
  | c :: d :: text =>
    if isExponentSign c d then numberTail text + 2
    else if isNumberPart c then numberTail (d :: text) + 1
    else 0

/-- A number starts with a digit or with a dot and a digit. -/
def number : List Char → Nat
  | '.' :: d :: text => if d.isDigit then numberTail text + 2 else 0
  | c :: text => if c.isDigit then numberTail text + 1 else 0
  | [] => 0

/-- The number of characters up to and including the closing quote, where a backslash is passed
over together with the character after it and a line feed ends the search. -/
def quoteClose (quote : Char) : List Char → Option Nat
  | [] => none
  | '\\' :: _ :: text => (quoteClose quote text).map (· + 2)
  | c :: text =>
    if c = quote then some 1
    else if c = '\\' ∨ c = '\n' then none
    else (quoteClose quote text).map (· + 1)

/-- A literal reaches from one quote through the next one that is not escaped. -/
def quoted (quote : Char) : List Char → Nat
  | c :: text =>
    if c = quote then
      match quoteClose quote text with
      | some n => n + 1
      | none => 0
    else 0
  | [] => 0

/-- The forms, in the order in which they are tried. -/
def forms : List (Kind × (List Char → Nat)) :=
  [(.newline, newline), (.whitespace, whitespace), (.lineComment, lineComment),
    (.blockComment, blockComment), (.identifier, identifier), (.number, number),
    (.stringLiteral, quoted '"'), (.charLiteral, quoted '\'')]

/-- The kind and the length of the lexeme at the front of a text that is not empty. -/
def form (text : List Char) : Kind × Nat :=
  ((forms.map fun f => (f.1, f.2 text)).find? (·.2 != 0)).getD (.punct, 1)

/-! ## A lexeme is not empty and does not reach past the text -/

theorem run_le (p : Char → Bool) (text : List Char) : run p text ≤ text.length :=
  (List.takeWhile_prefix p).length_le

theorem newline_le (text : List Char) : newline text ≤ text.length := by
  unfold newline; split <;> simp

theorem lineComment_le (text : List Char) : lineComment text ≤ text.length := by
  unfold lineComment
  split
  next text => have := run_le (· != '\n') text; simp only [List.length_cons]; omega
  next => omega

theorem commentClose_le {text : List Char} {n : Nat} (h : commentClose text = some n) :
    n ≤ text.length := by
  fun_induction commentClose text generalizing n with
  | case1 => simp only [Option.some.injEq] at h; simp only [List.length_cons]; omega
  | case2 _ text _ ih =>
    obtain ⟨m, hm, rfl⟩ := Option.map_eq_some_iff.1 h
    have := ih hm
    simp only [List.length_cons]; omega
  | case3 => simp at h

theorem blockComment_le (text : List Char) : blockComment text ≤ text.length := by
  unfold blockComment
  split
  next text =>
    split
    next n h => have := commentClose_le h; simp only [List.length_cons]; omega
    next => omega
  next => omega

theorem identifier_le (text : List Char) : identifier text ≤ text.length := by
  unfold identifier
  split
  next c text =>
    have := run_le isIdentifierPart text
    split <;> simp only [List.length_cons] <;> omega
  next => simp

theorem numberTail_le (text : List Char) : numberTail text ≤ text.length := by
  fun_induction numberTail text <;> simp only [List.length_cons, List.length_nil] at * <;> omega

theorem number_le (text : List Char) : number text ≤ text.length := by
  unfold number
  split
  next d text =>
    have := numberTail_le text
    split <;> simp only [List.length_cons] <;> omega
  next c text _ =>
    have := numberTail_le text
    split <;> simp only [List.length_cons] <;> omega
  next => simp

theorem quoteClose_le {quote : Char} {text : List Char} {n : Nat}
    (h : quoteClose quote text = some n) : n ≤ text.length := by
  fun_induction quoteClose quote text generalizing n with
  | case1 => simp at h
  | case2 _ text ih =>
    obtain ⟨m, hm, rfl⟩ := Option.map_eq_some_iff.1 h
    have := ih hm
    simp only [List.length_cons]; omega
  | case3 => simp only [Option.some.injEq] at h; simp only [List.length_cons]; omega
  | case4 => simp at h
  | case5 _ text _ _ _ ih =>
    obtain ⟨m, hm, rfl⟩ := Option.map_eq_some_iff.1 h
    have := ih hm
    simp only [List.length_cons]; omega

theorem quoted_le (quote : Char) (text : List Char) : quoted quote text ≤ text.length := by
  unfold quoted
  split
  next c text =>
    split
    next =>
      split
      next n h => have := quoteClose_le h; simp only [List.length_cons]; omega
      next => omega
    next => omega
  next => simp

/-- Every form stays within the text. -/
theorem forms_le (text : List Char) : ∀ f ∈ forms, f.2 text ≤ text.length := by
  simp only [forms, List.mem_cons, List.not_mem_nil, or_false, forall_eq_or_imp, forall_eq]
  exact ⟨newline_le text, run_le _ text, lineComment_le text, blockComment_le text,
    identifier_le text, number_le text, quoted_le _ text, quoted_le _ text⟩

/-- A lexeme has at least one character. -/
theorem form_pos (text : List Char) : 0 < (form text).2 := by
  unfold form
  cases h : (forms.map fun f => (f.1, f.2 text)).find? (·.2 != 0) with
  | none => simp
  | some f =>
    have := List.find?_some h
    simp only [bne_iff_ne, ne_eq] at this
    simp only [Option.getD_some]; omega

/-- A lexeme does not reach past the text. -/
theorem form_le {text : List Char} (h : text ≠ []) : (form text).2 ≤ text.length := by
  unfold form
  cases hf : (forms.map fun f => (f.1, f.2 text)).find? (·.2 != 0) with
  | none =>
    have := List.length_pos_iff.2 h
    simp only [Option.getD_none]; omega
  | some f =>
    obtain ⟨g, hg, rfl⟩ := List.mem_map.1 (List.mem_of_find?_eq_some hf)
    exact forms_le text g hg

end ShaderPass.Lexeme.Form
