import ShaderPass.Shader.Token
import ShaderPass.Proofs.Lexeme.Rescan
import ShaderPass.Proofs.Outcome
import ShaderPass.Proofs.Shader.Grammar
import ShaderPass.Proofs.Source.Spans
import ShaderPass.Proofs.Text.Blank
import ShaderPass.Proofs.Text.Slice

/-!
# Proofs/Shader/Tokens — tokens stand in the text, one after the other

    #version 300 es⏎ SubShader { … // }⏎ "}" }
    └─one token────┘ └───────┘ ╵   no token  ╵

Reading tokens goes through four cases (`ReadsTokens`): the end, a directive, a lexeme that makes no
token, and one that makes one.  Each token is the text that it stands at (`Token.StandsIn`), and each
begins where the one before it has ended, or later (`inOrder_tokenize`).
-/

namespace ShaderPass.Shader

open Lexeme (Cursor)
open Source (Span)
open Text (byteLength Boundary)

variable {start : Bool} {c c' : Cursor} {l : Lexeme} {ts : List Token} {text : String}

/-! ## What reading tokens goes through -/

/-- The token of the directive at a cursor. -/
def Token.directiveAt (c : Cursor) : Token :=
  ⟨.directive, lineAt c, ⟨c.location.offset, c.location.offset + (lineAt c).utf8ByteSize⟩⟩

/-- The token that a lexeme at an offset makes. -/
def Token.ofLexeme (kind : TokenKind) (l : Lexeme) (offset : Nat) : Token :=
  ⟨kind, l.text, ⟨offset, offset + l.text.utf8ByteSize⟩⟩

/-- Where reading goes on after a directive, from the cursor after its `#`. -/
def afterDirective (c c' : Cursor) : Cursor :=
  (skipTo (c.location.offset + (lineAt c).utf8ByteSize) c').1

theorem tokensFrom_fault {fault : Lexeme.Fault} (next : c.next .strict = .error fault) :
    tokensFrom start c = .error (fault, c.location) := by
  rw [tokensFrom]
  split
  next heq => cases next.symm.trans heq; rfl
  next heq => cases next.symm.trans heq
  next heq => cases next.symm.trans heq

theorem tokensFrom_atEnd (next : c.next .strict = .ok none) : tokensFrom start c = .ok [] := by
  rw [tokensFrom]
  split
  next heq => cases next.symm.trans heq
  next => rfl
  next heq => cases next.symm.trans heq

/-- A directive line is one token, and what comes behind it starts a line. -/
theorem tokensFrom_directive (next : c.next .strict = .ok (some (l, c')))
    (hash : l.isPunct '#' = true) :
    tokensFrom true c = (tokensFrom true (afterDirective c c')).map (.directiveAt c :: ·) := by
  rw [tokensFrom]
  split
  next heq => cases next.symm.trans heq
  next heq => cases next.symm.trans heq
  next heq =>
    cases next.symm.trans heq
    exact if_pos ⟨rfl, hash⟩

/-- Trivia are no tokens, but line ends start lines. -/
theorem tokensFrom_trivia (next : c.next .strict = .ok (some (l, c')))
    (noDirective : ¬(start = true ∧ l.isPunct '#' = true)) (trivia : TokenKind.ofLexeme? l = none) :
    tokensFrom start c = tokensFrom (start || l.kind == .newline) c' := by
  rw [tokensFrom]
  split
  next heq => cases next.symm.trans heq
  next heq => cases next.symm.trans heq
  next heq =>
    cases next.symm.trans heq
    simp only [if_neg noDirective, trivia]

/-- Any other lexeme is one token, on which no line starts. -/
theorem tokensFrom_token {kind : TokenKind} (next : c.next .strict = .ok (some (l, c')))
    (noDirective : ¬(start = true ∧ l.isPunct '#' = true))
    (token : TokenKind.ofLexeme? l = some kind) : tokensFrom start c =
      (tokensFrom false c').map (.ofLexeme kind l c.location.offset :: ·) := by
  rw [tokensFrom]
  split
  next heq => cases next.symm.trans heq
  next heq => cases next.symm.trans heq
  next heq =>
    cases next.symm.trans heq
    simp only [if_neg noDirective, token]
    rfl

/-- What reading tokens from a cursor goes through, at the start of a line or in one. -/
inductive ReadsTokens : Bool → Cursor → List Token → Prop
  | atEnd {start : Bool} {c : Cursor} (next : c.next .strict = .ok none) : ReadsTokens start c []
  | directive {c c' : Cursor} {l : Lexeme} {ts : List Token}
      (next : c.next .strict = .ok (some (l, c'))) (hash : l.isPunct '#' = true)
      (rest : ReadsTokens true (afterDirective c c') ts) : ReadsTokens true c (.directiveAt c :: ts)
  | trivia {start : Bool} {c c' : Cursor} {l : Lexeme} {ts : List Token}
      (next : c.next .strict = .ok (some (l, c')))
      (noDirective : ¬(start = true ∧ l.isPunct '#' = true))
      (trivia : TokenKind.ofLexeme? l = none)
      (rest : ReadsTokens (start || l.kind == .newline) c' ts) : ReadsTokens start c ts
  | token {start : Bool} {c c' : Cursor} {l : Lexeme} {kind : TokenKind} {ts : List Token}
      (next : c.next .strict = .ok (some (l, c')))
      (noDirective : ¬(start = true ∧ l.isPunct '#' = true))
      (token : TokenKind.ofLexeme? l = some kind) (rest : ReadsTokens false c' ts) :
      ReadsTokens start c (.ofLexeme kind l c.location.offset :: ts)

/-- **Tokens are read by going through these cases.** -/
theorem readsTokens_of_eq_ok (h : tokensFrom start c = .ok ts) : ReadsTokens start c ts := by
  induction start, c using tokensFrom.induct generalizing ts with
  | case1 start c fault next => cases (tokensFrom_fault next).symm.trans h
  | case2 start c next =>
    cases (tokensFrom_atEnd next).symm.trans h
    exact .atEnd next
  | case3 start c l c' next =>
    rename_i offset hash line stop after hs hskip ih
    obtain ⟨rfl, hash⟩ := hash
    obtain ⟨us, hus, rfl⟩ := map_eq_ok.1 ((tokensFrom_directive next hash).symm.trans h)
    have hafter : afterDirective c c' = after := congrArg Subtype.val hskip
    exact .directive next hash (hafter ▸ ih (hafter ▸ hus))
  | case4 start c l c' next noDirective trivia ih =>
    exact .trivia next noDirective trivia (ih ((tokensFrom_trivia next noDirective trivia).symm.trans h))
  | case5 start c l c' next noDirective kind token ih =>
    obtain ⟨us, hus, rfl⟩ := map_eq_ok.1 ((tokensFrom_token next noDirective token).symm.trans h)
    exact .token next noDirective token (ih hus)

/-- No tokens are read where no lexeme is. -/
theorem ReadsTokens.eq_nil_of_stuck (h : ReadsTokens start c ts)
    (stuck : ∀ l c', c.next .strict ≠ .ok (some (l, c'))) : ts = [] := by
  obtain _ | ⟨next, _, _⟩ | ⟨next, _, _, _⟩ | ⟨next, _, _, _⟩ := h
  · rfl
  all_goals exact absurd next (stuck _ _)

/-! ## Tokens stand in the text -/

/-- Whether reading a text strictly, lexeme by lexeme, comes to a cursor. -/
structure Reached (c : Cursor) (text : String) : Prop where
  inText : c.In text
  lexemes : (c.lexemes .strict).1 <:+ ((Cursor.ofString text).lexemes .strict).1

namespace Reached

theorem ofString (text : String) : Reached (.ofString text) text :=
  ⟨Cursor.in_ofString text, List.suffix_refl _⟩

theorem next (hc : Reached c text) (h : c.next .strict = .ok (some (l, c'))) : Reached c' text := by
  refine ⟨hc.inText.next h, List.IsSuffix.trans ?_ hc.lexemes⟩
  rw [Cursor.lexemes_of_next h]
  exact List.suffix_cons _ _

/-- A lexeme that is read where a text has been read to is one of its lexemes. -/
theorem mem (hc : Reached c text) (h : c.next .strict = .ok (some (l, c'))) :
    (l, c.location) ∈ ((Cursor.ofString text).lexemes .strict).1 := by
  refine hc.lexemes.mem ?_
  rw [Cursor.lexemes_of_next h]
  exact List.mem_cons_self

/-- A cursor that is reached is at a boundary. -/
theorem boundary (hc : Reached c text) : Boundary text c.location.offset := by
  obtain ⟨pre, htext, hloc⟩ := hc.inText
  exact ⟨pre, c.rest, htext, by rw [hloc, Location.offset_advanceAll]; exact (Nat.zero_add _).symm⟩

end Reached

/-- Whether a token is the text that a text has where the token stands, and is not empty.  Unless it
is a directive it is one lexeme of the text, and a punctuation token is its character. -/
structure Token.StandsIn (t : Token) (text : String) : Prop where
  place : ∃ pre post, text.toList = pre ++ (t.text.toList ++ post) ∧ byteLength pre = t.span.start
  stop : t.span.stop = t.span.start + t.text.utf8ByteSize
  nonempty : t.text ≠ ""
  lexeme : t.kind ≠ .directive → ∃ l location,
    (l, location) ∈ ((Cursor.ofString text).lexemes .strict).1 ∧ location.offset = t.span.start ∧
      l.text = t.text ∧ TokenKind.ofLexeme? l = some t.kind
  punct : ∀ c, t.isPunct c = true → t.text = String.singleton c

namespace Token.StandsIn

variable {t : Token}

theorem start_lt_stop (h : t.StandsIn text) : t.span.start < t.span.stop := by
  have := Text.utf8ByteSize_pos h.nonempty
  rw [h.stop]
  omega

theorem boundary_start (h : t.StandsIn text) : Boundary text t.span.start := by
  obtain ⟨pre, post, htext, hpre⟩ := h.place
  exact ⟨pre, _, htext, hpre⟩

theorem boundary_stop (h : t.StandsIn text) : Boundary text t.span.stop := by
  obtain ⟨pre, post, htext, hpre⟩ := h.place
  refine ⟨pre ++ t.text.toList, post, by rw [htext, List.append_assoc], ?_⟩
  rw [Text.byteLength_append, hpre, h.stop, Text.utf8ByteSize_eq]

end Token.StandsIn

theorem prefix_lineAt (c : Cursor) : (lineAt c).toList <+: c.rest :=
  (Text.prefix_trimEnd _).trans (by rw [String.toList_ofList]; exact List.takeWhile_prefix _)

/-- The line of a directive begins with its `#`. -/
theorem head_lineAt (hread : c.Reads l c') (hash : l.isPunct '#' = true) :
    ∃ ds, (lineAt c).toList = '#' :: ds := by
  obtain ⟨-, htext⟩ := Bool.and_eq_true_iff.1 hash
  have hrest : c.rest = '#' :: c'.rest := by rw [hread.rest, beq_iff_eq.1 htext]; rfl
  rw [lineAt, hrest, List.takeWhile_cons_of_pos (by decide)]
  exact Text.head_trimEnd (by decide) _

/-- A punctuation token is made of its character. -/
theorem text_of_ofLexeme? {x : Char} (hread : c.Reads l c')
    (h : TokenKind.ofLexeme? l = some (.punct x)) : l.text = String.singleton x := by
  have hk : l.kind = .punct ∧ l.text.toList.headD ' ' = x := by
    unfold TokenKind.ofLexeme? at h
    split at h
    all_goals simp_all
    split at h <;> simp_all
  have hlength : (Lexeme.Form.form c.rest).2 = 1 :=
    Lexeme.Form.punct_of_form (by rw [hread.form, hk.1])
  rw [hread.form] at hlength
  obtain ⟨y, hy⟩ := List.length_eq_one_iff.1 hlength
  rw [hy] at hk
  exact String.toList_injective (by rw [hy, ← hk.2, String.toList_singleton]; rfl)

/-- **The token of a lexeme stands in the text with the text of the lexeme.** -/
theorem standsIn_ofLexeme {kind : TokenKind} (hc : Reached c text)
    (next : c.next .strict = .ok (some (l, c'))) (token : TokenKind.ofLexeme? l = some kind) :
    (Token.ofLexeme kind l c.location.offset).StandsIn text := by
  have hread := Cursor.reads_of_next next
  obtain ⟨pre, htext, hloc⟩ := hc.inText
  refine ⟨⟨pre, c'.rest, by rw [htext, hread.rest]; rfl, ?_⟩, rfl, hread.nonempty,
    fun _ => ⟨l, c.location, hc.mem next, rfl, rfl, token⟩, fun x hx => ?_⟩
  · rw [Token.ofLexeme, hloc, Location.offset_advanceAll]
    exact (Nat.zero_add _).symm
  · obtain rfl : kind = .punct x := Token.isPunct_iff.1 hx
    exact text_of_ofLexeme? hread token

/-- **The token of a directive line stands in the text** with the text of the line. -/
theorem standsIn_directiveAt (hc : Reached c text) (hread : c.Reads l c')
    (hash : l.isPunct '#' = true) : (Token.directiveAt c).StandsIn text := by
  obtain ⟨pre, htext, hloc⟩ := hc.inText
  obtain ⟨post, hpost⟩ := prefix_lineAt c
  refine ⟨⟨pre, post, by rw [htext, ← hpost]; rfl, ?_⟩, rfl, fun he => ?_,
    fun h => absurd rfl h, fun x hx => nomatch hx⟩
  · rw [Token.directiveAt, hloc, Location.offset_advanceAll]
    exact (Nat.zero_add _).symm
  · obtain ⟨ds, hds⟩ := head_lineAt hread hash
    rw [show lineAt c = "" from he] at hds
    cases hds

theorem skipTo_of_le {offset : Nat} (h : offset ≤ c.location.offset) : (skipTo offset c).1 = c := by
  rw [skipTo, if_neg (Nat.not_lt.2 h)]

theorem skipTo_of_next {offset : Nat} (h : c.location.offset < offset)
    (next : c.next .strict = .ok (some (l, c'))) :
    (skipTo offset c).1 = (skipTo offset c').1 := by
  rw [skipTo, if_pos h]
  split
  next heq =>
    cases next.symm.trans heq
    rfl
  next hnone => exact absurd next (hnone _ _)

theorem skipTo_of_stuck {offset : Nat} (h : ∀ l c', c.next .strict ≠ .ok (some (l, c'))) :
    (skipTo offset c).1 = c := by
  rw [skipTo]
  split
  next =>
    split
    next heq => exact absurd heq (h _ _)
    next => rfl
  next => rfl

/-- Skipping to an offset reads on, and stops before the offset only where no lexeme can be read. -/
theorem skipTo_spec (offset : Nat) (hc : Reached c text) : Reached (skipTo offset c).1 text ∧
    c.location.offset ≤ (skipTo offset c).1.location.offset ∧
    (offset ≤ (skipTo offset c).1.location.offset ∨
      ∀ l c', (skipTo offset c).1.next .strict ≠ .ok (some (l, c'))) := by
  induction c using skipTo.induct offset with
  | case1 c hlt l c' next hle =>
    rename_i ih
    obtain ⟨hin, hoffset, hstop⟩ := ih (hc.next next)
    rw [skipTo_of_next hlt next]
    exact ⟨hin, Nat.le_trans (Nat.le_of_lt (Cursor.reads_of_next next).offset_lt) hoffset, hstop⟩
  | case2 c hlt hstuck =>
    rw [skipTo_of_stuck hstuck]
    exact ⟨hc, Nat.le_refl _, .inr hstuck⟩
  | case3 c hge =>
    rw [skipTo_of_le (Nat.not_lt.1 hge)]
    exact ⟨hc, Nat.le_refl _, .inl (Nat.not_lt.1 hge)⟩

/-- **Tokens stand in the text, in order.** -/
theorem inOrder_of_readsTokens (h : ReadsTokens start c ts) (hc : Reached c text) :
    (∀ t ∈ ts, t.StandsIn text) ∧
      Span.InOrder c.location.offset (ts.map (·.span)) text.utf8ByteSize := by
  induction h with
  | atEnd => exact ⟨List.forall_mem_nil _, hc.boundary.le_size⟩
  | @directive c c' l ts next hash rest ih =>
    obtain ⟨hafter, hoffset, hstop⟩ :=
      skipTo_spec (c.location.offset + (lineAt c).utf8ByteSize) (hc.next next)
    obtain ⟨hts, horder⟩ := ih hafter
    have standsIn := standsIn_directiveAt hc (Cursor.reads_of_next next) hash
    refine ⟨List.forall_mem_cons.2 ⟨standsIn, hts⟩, Nat.le_refl _, Nat.le_add_right _ _, ?_⟩
    rcases hstop with hle | hstuck
    · exact horder.mono hle (Nat.le_refl _)
    · obtain rfl : ts = [] := rest.eq_nil_of_stuck hstuck
      exact standsIn.boundary_stop.le_size
  | trivia next noDirective trivia rest ih =>
    have hread := Cursor.reads_of_next next
    obtain ⟨hts, horder⟩ := ih (hc.next next)
    exact ⟨hts, horder.mono (Nat.le_of_lt hread.offset_lt) (Nat.le_refl _)⟩
  | token next noDirective token rest ih =>
    have hread := Cursor.reads_of_next next
    obtain ⟨hts, horder⟩ := ih (hc.next next)
    refine ⟨List.forall_mem_cons.2 ⟨standsIn_ofLexeme hc next token, hts⟩, Nat.le_refl _,
      Nat.le_add_right _ _, ?_⟩
    exact horder.mono (Nat.le_of_eq hread.offset.symm) (Nat.le_refl _)

/-- **The tokens of a text stand in it, in order.** -/
theorem inOrder_tokenize (h : tokenize text = .ok ts) : (∀ t ∈ ts, t.StandsIn text) ∧
    Span.InOrder 0 (ts.map (·.span)) text.utf8ByteSize :=
  inOrder_of_readsTokens (readsTokens_of_eq_ok h) (.ofString text)

end ShaderPass.Shader
