import Mathlib
import ShaderPass.Proofs.Lexeme.Words
import ShaderPass.Proofs.Shader.Tokens

/-!
# Proofs/Shader/Coverage — what of a text is in no token

    #a "\⏎      one directive token, up to the backslash
    b // "⏎     the rest of the literal that begins on the line before: no token

Tokens are stretches of the text, one after the other.  A byte between them is in white space, in a
comment or in a line end; or it is in a literal that begins on the line of a directive and goes on
after it, over a line feed that is escaped: the lexemes of the line are passed over as far as they
go, which is then beyond the token of the directive (`covered_of_readsTokens`).
-/

namespace ShaderPass

namespace Lexeme.Form

variable {text : List Char} {quote : Char}

/-- A literal ends in its quote. -/
theorem getLast?_of_quoteClose (h : quoteClose quote text = some text.length) :
    text.getLast? = some quote := by
  have more : ∀ {d : Char} {u : List Char}, u.getLast? = some quote →
      (d :: u).getLast? = some quote := fun h => by rw [List.getLast?_cons, h]; rfl
  fun_induction quoteClose quote text with
  | case1 => cases h
  | case2 c text ih =>
    obtain ⟨n, hn, hlength⟩ := Option.map_eq_some_iff.1 h
    obtain rfl : n = text.length := Nat.add_right_cancel hlength
    exact more (more (ih hn))
  | case3 text =>
    obtain rfl : text = [] := List.length_eq_zero_iff.1 (Nat.succ.inj (Option.some.inj h).symm)
    rfl
  | case4 => cases h
  | case5 c text _ _ _ ih =>
    obtain ⟨n, hn, hlength⟩ := Option.map_eq_some_iff.1 h
    obtain rfl : n = text.length := Nat.add_right_cancel hlength
    exact more (ih hn)

theorem getLast?_of_quoted (hpos : text ≠ []) (h : quoted quote text = text.length) :
    text.getLast? = some quote := by
  cases text with
  | nil => exact absurd rfl hpos
  | cons c text =>
    rw [quoted] at h
    split at h
    next =>
      split at h
      next n hn =>
        obtain rfl : n = text.length := Nat.succ.inj h
        rw [List.getLast?_cons, getLast?_of_quoteClose hn]
        rfl
      next => cases h
    next => cases h

theorem quoted_of_form (h : (form text).1 = .stringLiteral ∨ (form text).1 = .charLiteral) :
    quoted '"' text = (form text).2 ∨ quoted '\'' text = (form text).2 := by
  rw [form_eq] at h ⊢
  repeat' split at h
  all_goals simp_all

/-- No blank is part of a word. -/
theorem not_isWordPart_of_isBlank {x : Char} (h : Text.isBlank x = true) :
    isWordPart x = false := by
  have all : Text.blanks.all (fun x => !isWordPart x) = true := by decide
  exact Bool.not_eq_true' _ ▸ List.all_eq_true.1 all x (List.contains_iff_mem.1 h)

end Lexeme.Form

namespace Shader

open Lexeme (Cursor)
open Source (Span)
open Text (byteLength Boundary)

variable {start : Bool} {c c' d : Cursor} {l : Lexeme} {ts : List Token} {text : String} {i : Nat}

/-! ## The lexemes of a text -/

/-- Whether a lexeme is read at a location of a text, which is read strictly from its start. -/
def IsRead (text : String) (r : Lexeme × Location) : Prop :=
  r ∈ ((Cursor.ofString text).lexemes .strict).1

/-- The stretch of a text that a lexeme is read at. -/
def lexemeSpan (r : Lexeme × Location) : Span :=
  ⟨r.2.offset, r.2.offset + r.1.text.utf8ByteSize⟩

/-- The lexemes of a text are one after the other. -/
theorem inOrder_lexemes (c : Cursor) :
    Span.InOrder c.location.offset ((c.lexemes .strict).1.map lexemeSpan)
      (c.lexemes .strict).2.1.location.offset := by
  induction c using Lexeme.Cursor.lexemes.induct .strict with
  | case1 c fault next => exact Cursor.lexemes_of_fault next ▸ Nat.le_refl _
  | case2 c next => exact Cursor.lexemes_of_atEnd next ▸ Nat.le_refl _
  | case3 c l c' next _ _ _ _ ih =>
    rw [Cursor.lexemes_of_next next]
    refine ⟨Nat.le_refl _, Nat.le_add_right _ _, ?_⟩
    rwa [(Cursor.reads_of_next next).offset] at ih

/-- **A byte of a text is in one lexeme only.** -/
theorem eq_of_covers {r s : Lexeme × Location} (hr : IsRead text r) (hs : IsRead text s)
    (hri : (lexemeSpan r).Covers i) (hsi : (lexemeSpan s).Covers i) : r = s := by
  have apart : ((Cursor.ofString text).lexemes .strict).1.Pairwise fun r s =>
      (lexemeSpan r).Apart (lexemeSpan s) :=
    (List.pairwise_map.1 (inOrder_lexemes (.ofString text)).pairwise).imp .inl
  have : Std.Symm fun r s => (lexemeSpan r).Apart (lexemeSpan s) := ⟨fun _ _ h => h.symm⟩
  exact by_contra fun hne => Span.not_apart_of_covers hri hsi (apart.forall hr hs hne)

/-- A lexeme has its first byte. -/
theorem covers_start {r : Lexeme × Location} (h : IsRead text r) :
    (lexemeSpan r).Covers r.2.offset := by
  obtain ⟨c, c', -, next, hlocation⟩ := Cursor.exists_next_of_mem (Cursor.in_ofString text) r h
  have hread := Cursor.reads_of_next next
  exact ⟨Nat.le_refl _, Nat.lt_add_of_pos_right (Text.utf8ByteSize_pos hread.nonempty)⟩

/-- Every token begins where a lexeme does. -/
theorem exists_isRead (h : ReadsTokens start c ts) (hc : Reached c text) :
    ∀ t ∈ ts, ∃ r, IsRead text r ∧ r.2.offset = t.span.start := by
  induction h with
  | atEnd => exact List.forall_mem_nil _
  | @directive c c' l ts next hash rest ih =>
    exact List.forall_mem_cons.2 ⟨⟨_, hc.mem next, rfl⟩, ih (skipTo_spec _ (hc.next next)).1⟩
  | trivia next noDirective trivia rest ih => exact ih (hc.next next)
  | token next noDirective token rest ih =>
    exact List.forall_mem_cons.2 ⟨⟨_, hc.mem next, rfl⟩, ih (hc.next next)⟩

/-! ## What goes on after a directive -/

/-- Of two ways to take a text apart, the longer first part goes on after the other's. -/
theorem exists_further {a b a' b' : List Char} (h : a ++ b = a' ++ b')
    (hlt : byteLength a < byteLength a') : ∃ x, x ≠ [] ∧ a' = a ++ x ∧ b = x ++ b' := by
  obtain ⟨x, rfl, rfl⟩ | ⟨x, rfl, rfl⟩ := List.append_eq_append_iff.1 h
  · refine ⟨x, ?_, rfl, rfl⟩
    rintro rfl
    rw [List.append_nil] at hlt
    exact Nat.lt_irrefl _ hlt
  · rw [Text.byteLength_append] at hlt
    omega

/-- A token of several characters that has a blank among them is a literal. -/
theorem literal_of_isBlank (next : c.next .strict = .ok (some (l, c')))
    (hsignificant : l.isSignificant = true) (hlength : l.text.toList.length ≠ 1) {x : Char}
    (hx : x ∈ l.text.toList) (hblank : Text.isBlank x = true) :
    l.kind = .stringLiteral ∨ l.kind = .charLiteral := by
  have hwhole := Lexeme.isWhole_of_next next
  have noWord : l.kind ≠ .identifier ∧ l.kind ≠ .number := by
    cases htext : l.text.toList with
    | nil => exact absurd (htext ▸ hx) List.not_mem_nil
    | cons y ys =>
      refine Lexeme.not_name_of_isWhole hwhole htext (Bool.eq_false_iff.2 fun hy => ?_)
      have hpart := (Lexeme.wordPart_of_isWhole hwhole htext hy).2 x hx
      exact Bool.false_ne_true ((Lexeme.Form.not_isWordPart_of_isBlank hblank).symm.trans hpart)
  have noPunct : l.kind ≠ .punct := fun hk => by
    have hread := Cursor.reads_of_next next
    have hform : (Lexeme.Form.form c.rest).1 = .punct := by rw [hread.form, hk]
    have hone := Lexeme.Form.punct_of_form hform
    rw [hread.form] at hone
    exact hlength hone
  rw [Lexeme.isSignificant, Lexeme.isTrivia] at hsignificant
  cases hk : l.kind with
  | newline | whitespace | lineComment | blockComment =>
    rw [hk] at hsignificant
    cases hsignificant
  | identifier => exact absurd hk noWord.1
  | number => exact absurd hk noWord.2
  | stringLiteral => exact .inl rfl
  | charLiteral => exact .inr rfl
  | punct => exact absurd hk noPunct

/-- The last character of a literal is its quote. -/
theorem not_isBlank_getLast_of_literal (next : c.next .strict = .ok (some (l, c')))
    (hliteral : l.kind = .stringLiteral ∨ l.kind = .charLiteral) :
    ∀ y ∈ l.text.toList.getLast?, Text.isBlank y = false := by
  obtain ⟨hne, hform, -⟩ := Lexeme.isWhole_of_next next
  have hliteral' : (Lexeme.Form.form l.text.toList).1 = .stringLiteral ∨
      (Lexeme.Form.form l.text.toList).1 = .charLiteral := by
    rwa [hform]
  have hquoted := Lexeme.Form.quoted_of_form hliteral'
  rw [hform] at hquoted
  intro y hy
  obtain hquoted | hquoted := hquoted
  · cases hy.symm.trans (Lexeme.Form.getLast?_of_quoted hne hquoted)
    decide
  · cases hy.symm.trans (Lexeme.Form.getLast?_of_quoted hne hquoted)
    decide

/-- The line at a cursor is followed by blanks up to the line end. -/
theorem exists_rest_lineAt (c : Cursor) :
    ∃ blanks after, c.rest = (lineAt c).toList ++ (blanks ++ after) ∧
      (∀ x ∈ blanks, Text.isBlank x = true) ∧ ∀ x ∈ after.head?, x = '\n' := by
  obtain ⟨blanks, hline, hblanks⟩ :=
    Text.exists_trimEnd (String.ofList (c.rest.takeWhile (· != '\n')))
  refine ⟨blanks, c.rest.dropWhile (· != '\n'), ?_, hblanks, fun x hx => ?_⟩
  · rw [String.toList_ofList] at hline
    rw [lineAt, ← List.append_assoc, ← hline, List.takeWhile_append_dropWhile]
  · have hhead := List.head?_dropWhile_not (· != '\n') c.rest
    rw [Option.mem_def.1 hx] at hhead
    simpa using hhead

/-- What goes on after a line is blank, up to a line feed. -/
theorem isBlank_or_mem {blanks after w rest : List Char} (h : blanks ++ after = w ++ rest)
    (hblanks : ∀ x ∈ blanks, Text.isBlank x = true) (hafter : ∀ x ∈ after.head?, x = '\n') :
    (∀ x ∈ w, Text.isBlank x = true) ∨ '\n' ∈ w := by
  obtain ⟨v, rfl, rfl⟩ | ⟨v, rfl, rfl⟩ := List.append_eq_append_iff.1 h
  · cases v with
    | nil => exact .inl (by rwa [List.append_nil])
    | cons y v =>
      obtain rfl : y = '\n' := hafter y rfl
      exact .inr (List.mem_append_right _ List.mem_cons_self)
  · exact .inl fun x hx => hblanks x (List.mem_append_left v hx)

/-- **What begins on the line of a directive and goes on after it is a literal with a line feed in
it**, unless it is white space or a comment. -/
theorem literal_of_crosses {u : List Char} (hrest : c.rest = u ++ d.rest)
    (next : d.next .strict = .ok (some (l, c'))) (hsignificant : l.isSignificant = true)
    (hbegins : byteLength u < (lineAt c).utf8ByteSize)
    (hends : (lineAt c).utf8ByteSize < byteLength u + l.text.utf8ByteSize) :
    (l.kind = .stringLiteral ∨ l.kind = .charLiteral) ∧ '\n' ∈ l.text.toList := by
  obtain ⟨blanks, after, hline, hblanks, hafter⟩ := exists_rest_lineAt c
  rw [Text.utf8ByteSize_eq] at hbegins hends
  obtain ⟨v, hv, hsplit, hd⟩ := exists_further (hrest.symm.trans hline) hbegins
  rw [hsplit, Text.byteLength_append, Text.utf8ByteSize_eq] at hends
  -- the lexeme is what is left of the line, and some of what comes after that
  rw [(Cursor.reads_of_next next).rest] at hd
  obtain ⟨w, hw, htext, hover⟩ := exists_further hd.symm (by omega)
  have hlength : l.text.toList.length ≠ 1 := by
    have := List.length_pos_iff.2 hv
    have := List.length_pos_iff.2 hw
    rw [htext, List.length_append]
    omega
  have literal {x : Char} (hx : x ∈ w) (hblank : Text.isBlank x = true) :=
    literal_of_isBlank next hsignificant hlength (htext ▸ List.mem_append_right v hx) hblank
  obtain hall | hfeed := isBlank_or_mem hover hblanks hafter
  · have hlast := List.getLast_mem hw
    have htextLast : w.getLast hw ∈ l.text.toList.getLast? := by
      rw [htext, List.getLast?_append_of_ne_nil v hw]
      exact List.getLast?_eq_some_getLast hw
    have noBlank := not_isBlank_getLast_of_literal next (literal hlast (hall _ hlast)) _ htextLast
    exact Bool.noConfusion ((hall _ hlast).symm.trans noBlank)
  · exact ⟨literal hfeed (by decide), htext ▸ List.mem_append_right v hfeed⟩

/-- Skipping beyond an offset reads a lexeme that begins before the offset and ends after it. -/
theorem exists_crossing {offset : Nat} (hc : Reached c text) (hle : c.location.offset ≤ offset)
    (hlt : offset < (skipTo offset c).1.location.offset) : ∃ d l, Reached d text ∧
      d.next .strict = .ok (some (l, (skipTo offset c).1)) ∧ d.location.offset < offset ∧
      ∃ u, c.rest = u ++ d.rest ∧ d.location.offset = c.location.offset + byteLength u := by
  induction c using skipTo.induct offset with
  | case1 c hlt' l c' next _ =>
    rename_i ih
    rw [skipTo_of_next hlt' next] at hlt ⊢
    have hread := Cursor.reads_of_next next
    by_cases hle' : c'.location.offset ≤ offset
    · obtain ⟨d, m, hd, hnext, hbefore, u, hu, hoffset⟩ := ih (hc.next next) hle' hlt
      refine ⟨d, m, hd, hnext, hbefore, l.text.toList ++ u, ?_, ?_⟩
      · rw [hread.rest, hu, List.append_assoc]
      · rw [hoffset, hread.offset, Text.byteLength_append, Text.utf8ByteSize_eq, Nat.add_assoc]
    · rw [skipTo_of_le (Nat.le_of_not_le hle')]
      exact ⟨c, l, hc, next, hlt', [], rfl, rfl⟩
  | case2 c _ hstuck =>
    rw [skipTo_of_stuck hstuck] at hlt
    omega
  | case3 c hge =>
    rw [skipTo_of_le (Nat.not_lt.1 hge)] at hlt
    omega

/-! ## Every byte is accounted for -/

/-- Whether a byte of a text is in white space, in a comment or in a line end. -/
def Insignificant (text : String) (i : Nat) : Prop :=
  ∃ r, IsRead text r ∧ r.1.isSignificant = false ∧ (lexemeSpan r).Covers i

/-- Whether a literal of a text **runs over** a directive: it begins on the line of the directive,
has a line feed in it, and ends after the token of the directive. -/
structure RunsOver (text : String) (t : Token) (r : Lexeme × Location) : Prop where
  directive : t.kind = .directive
  isRead : IsRead text r
  literal : r.1.kind = .stringLiteral ∨ r.1.kind = .charLiteral
  lineFeed : '\n' ∈ r.1.text.toList
  begins : t.span.Covers r.2.offset
  ends : t.span.stop < (lexemeSpan r).stop

/-- Whether a byte of a text is **lost**: it is in a literal that runs over a directive, after the
token of the directive. -/
def Lost (text : String) (ts : List Token) (i : Nat) : Prop :=
  ∃ t ∈ ts, ∃ r, RunsOver text t r ∧ t.span.stop ≤ i ∧ (lexemeSpan r).Covers i

theorem Lost.mono {us : List Token} (h : Lost text ts i) (hts : ∀ t ∈ ts, t ∈ us) :
    Lost text us i := by
  obtain ⟨t, ht, r, h⟩ := h
  exact ⟨t, hts t ht, r, h⟩

theorem isSignificant_eq_false (h : TokenKind.ofLexeme? l = none) : l.isSignificant = false := by
  unfold TokenKind.ofLexeme? at h
  rw [Lexeme.isSignificant, Lexeme.isTrivia]
  split at h
  case h_5 => split at h <;> cases h
  all_goals simp_all [Kind.isTrivia]

/-- What is between the token of a directive and where reading goes on is in the lexeme that was
passed over last. -/
theorem lost_of_directive (hc : Reached c text) (next : c.next .strict = .ok (some (l, c')))
    (hash : l.isPunct '#' = true) (hstop : (Token.directiveAt c).span.stop ≤ i)
    (hafter : i < (afterDirective c c').location.offset) :
    Insignificant text i ∨ Lost text [.directiveAt c] i := by
  have hread := Cursor.reads_of_next next
  have hle : c'.location.offset ≤ (Token.directiveAt c).span.stop := by
    obtain ⟨ds, hds⟩ := head_lineAt hread hash
    have hhash : l.text.toList = ['#'] := by
      rw [beq_iff_eq.1 (Bool.and_eq_true_iff.1 hash).2, String.toList_singleton]
    rw [hread.offset, Token.directiveAt, Text.utf8ByteSize_eq, Text.utf8ByteSize_eq, hds, hhash]
    exact Nat.add_le_add_left (Nat.add_le_add_left (Nat.zero_le _) _) _
  obtain ⟨d, m, hd, hnext, hbefore, u, hu, hoffset⟩ :=
    exists_crossing (hc.next next) hle (Nat.lt_of_le_of_lt hstop hafter)
  have hafter : i < d.location.offset + m.text.utf8ByteSize :=
    (Cursor.reads_of_next hnext).offset ▸ hafter
  have hplace : d.location.offset ≤ i := Nat.le_trans (Nat.le_of_lt hbefore) hstop
  have covers : (lexemeSpan (m, d.location)).Covers i := ⟨hplace, hafter⟩
  by_cases hsignificant : m.isSignificant = true
  · refine .inr ⟨_, List.mem_singleton_self _, (m, d.location), ?_, hstop, covers⟩
    have hrest : c.rest = (l.text.toList ++ u) ++ d.rest := by
      rw [hread.rest, hu, List.append_assoc]
    have hbegin : d.location.offset = c.location.offset + byteLength (l.text.toList ++ u) := by
      rw [hoffset, hread.offset, Text.byteLength_append, Text.utf8ByteSize_eq, Nat.add_assoc]
    have hspan : (Token.directiveAt c).span.stop =
        c.location.offset + (lineAt c).utf8ByteSize := rfl
    obtain ⟨literal, lineFeed⟩ := literal_of_crosses hrest hnext hsignificant (by omega) (by omega)
    exact ⟨rfl, hd.mem hnext, literal, lineFeed, ⟨hbegin ▸ Nat.le_add_right _ _, hbefore⟩,
      Nat.lt_of_le_of_lt hstop hafter⟩
  · exact .inl ⟨_, hd.mem hnext, Bool.eq_false_iff.2 hsignificant, covers⟩

/-- **Every byte is in a token, or in what makes none, or lost.** -/
theorem covered_of_readsTokens (h : ReadsTokens start c ts) (hc : Reached c text)
    (hi : c.location.offset ≤ i) (hsize : i < text.utf8ByteSize) :
    (∃ t ∈ ts, t.span.Covers i) ∨ Insignificant text i ∨ Lost text ts i := by
  induction h with
  | @atEnd _ c next =>
    obtain ⟨pre, htext, hloc⟩ := hc.inText
    rw [Cursor.next_eq_none next, List.append_nil] at htext
    rw [hloc, Location.offset_advanceAll, ← htext, ← Text.utf8ByteSize_eq] at hi
    simp only [Location.origin] at hi
    omega
  | @directive c c' l ts next hash rest ih =>
    by_cases hstop : i < (Token.directiveAt c).span.stop
    · exact .inl ⟨_, List.mem_cons_self, hi, hstop⟩
    by_cases hafter : i < (afterDirective c c').location.offset
    · refine .inr ((lost_of_directive hc next hash (Nat.not_lt.1 hstop) hafter).imp_right ?_)
      exact fun lost => lost.mono fun t ht => List.mem_singleton.1 ht ▸ List.mem_cons_self
    · exact (ih (skipTo_spec _ (hc.next next)).1 (Nat.not_lt.1 hafter)).imp
        (Exists.imp fun t h => ⟨List.mem_cons_of_mem _ h.1, h.2⟩)
        (Or.imp_right fun lost => lost.mono fun t => List.mem_cons_of_mem _)
  | @trivia start c c' l ts next noDirective trivia rest ih =>
    have hoffset := (Cursor.reads_of_next next).offset
    by_cases hlexeme : i < c.location.offset + l.text.utf8ByteSize
    · exact .inr (.inl ⟨_, hc.mem next, isSignificant_eq_false trivia, hi, hlexeme⟩)
    · exact ih (hc.next next) (hoffset ▸ Nat.not_lt.1 hlexeme)
  | @token start c c' l kind ts next noDirective token rest ih =>
    have hoffset := (Cursor.reads_of_next next).offset
    by_cases hlexeme : i < c.location.offset + l.text.utf8ByteSize
    · exact .inl ⟨_, List.mem_cons_self, hi, hlexeme⟩
    · exact (ih (hc.next next) (hoffset ▸ Nat.not_lt.1 hlexeme)).imp
        (Exists.imp fun t h => ⟨List.mem_cons_of_mem _ h.1, h.2⟩)
        (Or.imp_right fun lost => lost.mono fun t => List.mem_cons_of_mem _)

theorem Lost.not_insignificant (h : Lost text ts i) : ¬Insignificant text i := by
  obtain ⟨t, -, r, runsOver, -, hr⟩ := h
  rintro ⟨s, hs, hsignificant, hcovers⟩
  obtain rfl := eq_of_covers runsOver.isRead hs hr hcovers
  rw [Lexeme.isSignificant, Lexeme.isTrivia] at hsignificant
  obtain hk | hk := runsOver.literal <;> rw [hk] at hsignificant <;> cases hsignificant

/-- **What is lost is in no token.** -/
theorem not_covers_of_lost (h : tokenize text = .ok ts) (lost : Lost text ts i) :
    ¬∃ t ∈ ts, t.span.Covers i := by
  obtain ⟨t, ht, r, runsOver, hstop, hr⟩ := lost
  rintro ⟨u, hu, hcovers⟩
  have order := (List.pairwise_map.1 (inOrder_tokenize h).2.pairwise).imp
    (S := fun t u => t.span.Apart u.span) .inl
  have : Std.Symm fun t u : Token => t.span.Apart u.span := ⟨fun _ _ h => h.symm⟩
  by_cases htu : t = u
  · exact Nat.lt_irrefl i (Nat.lt_of_lt_of_le (htu ▸ hcovers.2) hstop)
  obtain hbefore | hbefore := order.forall ht hu htu
  · -- a token after the directive begins with a lexeme, which would be inside the literal
    obtain ⟨s, hs, hbegin⟩ := exists_isRead (readsTokens_of_eq_ok h) (.ofString text) u hu
    have hlater : r.2.offset < s.2.offset :=
      hbegin ▸ Nat.lt_of_lt_of_le runsOver.begins.2 hbefore
    have hinside : (lexemeSpan r).Covers s.2.offset :=
      ⟨Nat.le_of_lt hlater, Nat.lt_of_le_of_lt (hbegin ▸ hcovers.1) hr.2⟩
    obtain rfl := eq_of_covers hs runsOver.isRead (covers_start hs) hinside
    exact Nat.lt_irrefl _ hlater
  · have hbefore : u.span.stop ≤ t.span.start := hbefore
    have := runsOver.begins.1
    have := runsOver.begins.2
    have := hcovers.2
    omega

/-- **The tokens of a text are stretches of it in order, and account for all of it but what is
lost.**  Each token is the text from the one of two boundaries up to the other, and ends before the
next one begins; and a byte that is in no token is in white space, in a comment or in a line end,
unless it is lost: in a literal that begins on the line of a directive and goes on, over a line feed
in it, after the token.  Such a byte is in no token, nor in white space or a comment. -/
theorem accounted_of_tokenize (h : tokenize text = .ok ts) :
    (∀ t ∈ ts, t.span.start < t.span.stop ∧ t.span.stop ≤ text.utf8ByteSize ∧
      Boundary text t.span.start ∧ Boundary text t.span.stop ∧
      Text.slice? text t.span.start t.span.stop = some t.text) ∧
    ts.Pairwise (fun t u => t.span.stop ≤ u.span.start) ∧
    (∀ i < text.utf8ByteSize,
      (∃ t ∈ ts, t.span.Covers i) ∨ Insignificant text i ∨ Lost text ts i) ∧
    ∀ i, Lost text ts i → (¬∃ t ∈ ts, t.span.Covers i) ∧ ¬Insignificant text i := by
  obtain ⟨standsIn, order⟩ := inOrder_tokenize h
  refine ⟨fun t ht => ?_, List.pairwise_map.1 order.pairwise, fun i hi => ?_, fun i lost => ?_⟩
  · have hstands := standsIn t ht
    obtain ⟨pre, post, htext, hpre⟩ := hstands.place
    refine ⟨hstands.start_lt_stop, hstands.boundary_stop.le_size, hstands.boundary_start,
      hstands.boundary_stop, Text.slice?_eq_some_iff.2 ⟨pre, post, htext, hpre, ?_⟩⟩
    rw [hstands.stop, Text.utf8ByteSize_eq]
  · exact covered_of_readsTokens (readsTokens_of_eq_ok h) (.ofString text) (Nat.zero_le i) hi
  · exact ⟨not_covers_of_lost h lost, lost.not_insignificant⟩

/-- A literal that the line of a directive ends in: the token after it is found. -/
theorem accounted_of_tokenize_apply :
    tokenize "#a \"\\\nb\" c\n" = .ok [⟨.directive, "#a \"\\", ⟨0, 5⟩⟩,
        ⟨.identifier, "c", ⟨9, 10⟩⟩] ∧
      Text.slice? "#a \"\\\nb\" c\n" 9 10 = some "c" := by
  have h : tokenize "#a \"\\\nb\" c\n" = .ok [⟨.directive, "#a \"\\", ⟨0, 5⟩⟩,
        ⟨.identifier, "c", ⟨9, 10⟩⟩] := by cbv
  exact ⟨h, ((accounted_of_tokenize h).1 _ (List.mem_cons_of_mem _ List.mem_cons_self)).2.2.2.2⟩

/-- The name at the start of a line is lost where the line before it is a directive that ends in an
escaped line feed within a literal. -/
theorem byte_lost : ∃ ts, tokenize "#a \"\\\nb // \"\n" = .ok ts ∧
    (¬∃ t ∈ ts, t.span.Covers 6) ∧ ¬Insignificant "#a \"\\\nb // \"\n" 6 := by
  have h : tokenize "#a \"\\\nb // \"\n" = .ok [⟨.directive, "#a \"\\", ⟨0, 5⟩⟩] := by cbv
  have isRead : IsRead "#a \"\\\nb // \"\n" (⟨.stringLiteral, "\"\\\nb // \""⟩, ⟨3, 1, 4⟩) := by
    have hlexemes : ((Cursor.ofString "#a \"\\\nb // \"\n").lexemes .strict).1 =
        [(⟨.punct, "#"⟩, ⟨0, 1, 1⟩), (⟨.identifier, "a"⟩, ⟨1, 1, 2⟩),
          (⟨.whitespace, " "⟩, ⟨2, 1, 3⟩), (⟨.stringLiteral, "\"\\\nb // \""⟩, ⟨3, 1, 4⟩),
          (⟨.newline, "\n"⟩, ⟨12, 2, 7⟩)] := by cbv
    rw [IsRead, hlexemes]
    decide
  have runsOver : RunsOver "#a \"\\\nb // \"\n" ⟨.directive, "#a \"\\", ⟨0, 5⟩⟩
      (⟨.stringLiteral, "\"\\\nb // \""⟩, ⟨3, 1, 4⟩) :=
    ⟨rfl, isRead, .inl rfl, by decide, ⟨by decide, by decide⟩, by decide⟩
  have lost : Lost "#a \"\\\nb // \"\n" [⟨.directive, "#a \"\\", ⟨0, 5⟩⟩] 6 :=
    ⟨_, List.mem_singleton_self _, _, runsOver, by decide, by decide, by decide⟩
  exact ⟨_, h, not_covers_of_lost h lost, lost.not_insignificant⟩

end Shader

end ShaderPass
