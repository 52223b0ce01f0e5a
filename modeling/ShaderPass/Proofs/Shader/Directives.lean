import ShaderPass.Proofs.Directive.FreeText
import ShaderPass.Proofs.Lexeme.LineStart
import ShaderPass.Proofs.Shader.Tokens

/-!
# Proofs/Shader/Directives — a directive that stands on its own line is one token

    … ⏎ ␣␣ #version 300 es⏎ …
            └─one token───┘▲ what comes after it is read from here
-/

namespace ShaderPass.Shader

open Directive (IsLine)
open Lexeme (Cursor)
open Lexeme.Cursor (ComesTo Before)
open Text (byteLength)

variable {start b : Bool} {c c' d e x : Cursor} {l : Lexeme} {ts : List Token} {text : String}

/-! ## Up to the start of a line -/

/-- The line at a cursor ends before the line ends that come after it. -/
theorem prefix_lineAt_of_newline {u v : List Char} (hc : c.rest = u ++ v)
    (hv : Lexeme.Form.newline v ≠ 0) : (lineAt c).toList <+: u := by
  have trimmed : ∀ w, (Text.trimEnd (String.ofList w)).toList <+: w := fun w => by
    have h := Text.prefix_trimEnd (String.ofList w)
    rwa [String.toList_ofList] at h
  rw [lineAt, hc]
  by_cases hlf : ∀ x ∈ u, (x != '\n') = true
  · rw [List.takeWhile_append_of_pos hlf]
    unfold Lexeme.Form.newline at hv
    split at hv
    next v =>
      have htake : ('\r' :: '\n' :: v).takeWhile (· != '\n') = ['\r'] := rfl
      rw [htake, Text.trimEnd_append_blank (by decide)]
      exact trimmed u
    next v =>
      have htake : ('\n' :: v).takeWhile (· != '\n') = [] := rfl
      rw [htake, List.append_nil]
      exact trimmed u
    next => exact absurd rfl hv
  · have htake : (u ++ v).takeWhile (· != '\n') = u.takeWhile (· != '\n') := by
      rw [List.takeWhile_append, if_neg]
      intro hlength
      refine hlf fun x hx => ?_
      rw [← (List.takeWhile_prefix _).eq_of_length hlength] at hx
      exact List.all_eq_true.1 List.all_takeWhile x hx
    rw [htake]
    exact (trimmed _).trans (List.takeWhile_prefix _)

/-- A reading that comes to the start of a line has left the line that it is on. -/
theorem lineAt_le_of_comesTo (h : ComesTo d b x) {u : List Char} (hrest : c.rest = u ++ x.rest)
    (hoffset : x.location.offset = c.location.offset + byteLength u) :
    b = true ∨ c.location.offset + (lineAt c).utf8ByteSize ≤ d.location.offset := by
  induction h generalizing u with
  | here => exact .inl rfl
  | @read b x x' l next more ih =>
    have hread := Cursor.reads_of_next next
    by_cases hk : l.kind = .newline
    · have hform : (Lexeme.Form.form x.rest).1 = .newline := by rw [hread.form, hk]
      obtain ⟨v, rfl⟩ := prefix_lineAt_of_newline hrest (Lexeme.Form.newline_of_form hform).1
      have hmore := (ComesTo.read next more).offset_le
      rw [hoffset, Text.byteLength_append] at hmore
      rw [Text.utf8ByteSize_eq]
      exact .inr (by omega)
    · have hrest' : c.rest = (u ++ l.text.toList) ++ x'.rest := by
        rw [hrest, hread.rest, List.append_assoc]
      have hoffset' : x'.location.offset =
          c.location.offset + byteLength (u ++ l.text.toList) := by
        rw [hread.offset, hoffset, Text.byteLength_append, Text.utf8ByteSize_eq, Nat.add_assoc]
      exact (ih hrest' hoffset').imp_left (Lexeme.eq_true_of_startsLine hk)

/-- Skipping what does not reach beyond the start of a line does not, either. -/
theorem comesTo_skipTo (h : ComesTo d b c) {offset : Nat} (hoffset : offset ≤ d.location.offset) :
    ∃ b', ComesTo d b' (skipTo offset c).1 := by
  induction h with
  | here => exact ⟨true, (skipTo_of_le hoffset).symm ▸ .here⟩
  | @read b c c' l next more ih =>
    by_cases hlt : c.location.offset < offset
    · rw [skipTo_of_next hlt next]
      exact ih
    · exact ⟨b, (skipTo_of_le (Nat.not_lt.1 hlt)).symm ▸ .read next more⟩

theorem isSignificant_of_ofLexeme? {kind : TokenKind} (h : TokenKind.ofLexeme? l = some kind) :
    l.isSignificant = true := by
  rw [Lexeme.isSignificant, Lexeme.isTrivia]
  cases hk : l.kind with
  | newline | whitespace | lineComment | blockComment =>
    simp only [TokenKind.ofLexeme?, hk] at h
    cases h
  | identifier | number | stringLiteral | charLiteral | punct => rfl

/-- Reading tokens knows where lines start. -/
theorem start_of_startsLine (hb : b = true → start = true) (h : l.startsLine b = true) :
    (start || l.kind == .newline) = true := by
  rw [Bool.or_eq_true]
  by_cases hk : l.kind = .newline
  · exact .inr (beq_iff_eq.2 hk)
  · exact .inl (hb (Lexeme.eq_true_of_startsLine hk h))

/-- **Reading tokens goes on at the start of a line that the reading comes to**, after the tokens
before it. -/
theorem tokensFrom_of_comesTo (h : ComesTo d b c) (hb : b = true → start = true) :
    ∃ before, tokensFrom start c = (tokensFrom true d).map (before ++ ·) ∧
      ∀ t ∈ before, t.span.stop ≤ d.location.offset := by
  induction hn : c.rest.length using Nat.strong_induction_on generalizing start b c with
  | _ n ih =>
    subst hn
    obtain _ | @⟨_, _, c', l, next, more⟩ := h
    · obtain rfl : start = true := hb rfl
      refine ⟨[], ?_, List.forall_mem_nil _⟩
      cases tokensFrom true d <;> rfl
    · have hread := Cursor.reads_of_next next
      have hlt := Cursor.next_rest_lt next
      have hle := more.offset_le
      by_cases hdir : start = true ∧ l.isPunct '#' = true
      · obtain ⟨rfl, hash⟩ := hdir
        have hfalse : l.startsLine b = false := 
          Lexeme.startsLine_of_isSignificant (Lexeme.isSignificant_of_isPunct hash)
        have hbound : c.location.offset + (lineAt c).utf8ByteSize ≤ d.location.offset := by
          refine (lineAt_le_of_comesTo more hread.rest ?_).resolve_left (by simp [hfalse])
          rw [hread.offset, Text.utf8ByteSize_eq]
        obtain ⟨b', hafter⟩ := comesTo_skipTo more hbound
        obtain ⟨before, heq, hstops⟩ :=
          ih _ (Nat.lt_of_le_of_lt (skipTo _ c').2 hlt) hafter (fun _ => rfl) rfl
        refine ⟨.directiveAt c :: before, ?_, List.forall_mem_cons.2 ⟨hbound, hstops⟩⟩
        rw [tokensFrom_directive next hash, show tokensFrom true (afterDirective c c') = _ from heq]
        cases tokensFrom true d <;> rfl
      · cases htoken : TokenKind.ofLexeme? l with
        | none =>
          rw [tokensFrom_trivia next hdir htoken]
          exact ih _ hlt more (start_of_startsLine hb) rfl
        | some kind =>
          rw [tokensFrom_token next hdir htoken]
          have hfalse := Lexeme.startsLine_of_isSignificant (b := b) (isSignificant_of_ofLexeme? htoken)
          have hb : l.startsLine b = true → false = true := hfalse ▸ id
          obtain ⟨before, heq, hstops⟩ := ih _ hlt more hb rfl
          refine ⟨.ofLexeme kind l c.location.offset :: before, ?_, ?_⟩
          · rw [heq]
            cases tokensFrom true d <;> rfl
          · refine List.forall_mem_cons.2 ⟨?_, hstops⟩
            show c.location.offset + l.text.utf8ByteSize ≤ d.location.offset
            rwa [← hread.offset]

/-! ## Over a directive -/

/-- Whether some characters are what a cursor has left of its line, up to another cursor, and end in
no blank. -/
structure RestOfLine (u : List Char) (c e : Cursor) : Prop where
  before : Before u c e
  oneLine : '\n' ∉ u
  solid : ∀ y ∈ u.getLast?, Lexeme.Form.isSpace y = false
  stop : ∀ y ∈ e.rest.head?, y = '\n'

theorem RestOfLine.after {u v : List Char} (h : RestOfLine (u ++ v) c e) :
    RestOfLine v (c.skip u.length) e := by
  refine ⟨h.before.after, fun hmem => h.oneLine (List.mem_append_right u hmem), fun y hy => ?_,
    h.stop⟩
  have hne : v ≠ [] := by
    rintro rfl
    cases hy
  exact h.solid y (by rwa [List.getLast?_append_of_ne_nil _ hne])

theorem isBlank_of_isSpace {y : Char} (h : Lexeme.Form.isSpace y = true) :
    Text.isBlank y = true := by
  simp only [Lexeme.Form.isSpace, Bool.or_eq_true, beq_iff_eq] at h
  obtain (((rfl | rfl) | rfl) | rfl) | rfl := h <;> decide

theorem restOfLine_of_isLine (h : IsLine text) (hc : Before text.toList c e)
    (hstop : ∀ y ∈ e.rest.head?, y = '\n') : RestOfLine text.toList c e := by
  refine ⟨hc, h.oneLine, fun y hy => Bool.eq_false_iff.2 fun hspace => ?_, hstop⟩
  exact Bool.false_ne_true ((h.trimmed y hy).symm.trans (isBlank_of_isSpace hspace))

theorem takeWhile_line {u v : List Char} (hu : '\n' ∉ u) (hv : ∀ y ∈ v.head?, y = '\n') :
    (u ++ v).takeWhile (· != '\n') = u := by
  have hall : ∀ x ∈ u, (x != '\n') = true := fun x hx => bne_iff_ne.2 fun he => hu (he ▸ hx)
  rw [List.takeWhile_append_of_pos hall]
  cases v with
  | nil => exact List.append_nil u
  | cons x v =>
    obtain rfl : x = '\n' := hv x rfl
    exact List.append_nil u

/-- The line at a cursor is the text that stands there. -/
theorem lineAt_eq (ht : IsLine text) (h : RestOfLine text.toList c e) : lineAt c = text := by
  rw [lineAt, h.before.rest, takeWhile_line h.oneLine h.stop, String.ofList_toList,
    Text.trimEnd_eq_self ht.trimmed]

open Lexeme.Form in
/-- White space that ends before a character ends there whatever comes after that. -/
theorem begins_whitespace_cons {u v w : List Char} {y : Char}
    (h : Begins .whitespace u (u ++ y :: v)) : Begins .whitespace u (u ++ y :: w) := by
  have hspaces := (begins_whitespace h).1
  obtain ⟨hne, hform, -⟩ := h
  obtain ⟨hnewline, hlength⟩ := whitespace_of_form (congrArg Prod.fst hform)
  rw [hform] at hlength
  have hrun : run isSpace (u ++ y :: v) = u.length := hlength.symm
  obtain ⟨hrun, hy⟩ := (run_append isSpace).1 hrun
  have hrun : run isSpace (u ++ y :: w) = u.length := (run_append _).2 ⟨hrun, hy⟩
  obtain ⟨x, u, rfl⟩ := List.exists_cons_of_ne_nil hne
  have hx := hspaces x List.mem_cons_self
  have hnewline' : newline (x :: (u ++ y :: w)) = 0 := by
    by_contra hne
    obtain ⟨rfl, rest, htext⟩ := Cursor.eq_crlf hx hne
    cases u with
    | nil =>
      obtain ⟨rfl, -⟩ := List.cons.inj htext
      cases hnewline
    | cons z u =>
      obtain ⟨rfl, -⟩ := List.cons.inj htext
      exact absurd (hspaces '\n' (List.mem_cons_of_mem _ List.mem_cons_self)) (by decide)
  rw [List.cons_append, run, List.takeWhile_cons_of_pos hx] at hrun
  exact ⟨hne, (form_space hx hnewline').trans (congrArg (Prod.mk _) hrun), Kind.noConfusion⟩

/-- No lexeme runs on into a line feed. -/
theorem runsOn_lineFeed {v : List Char} (hv : ∀ y ∈ v.head?, y = '\n') :
    l.runsOn v = false := by
  cases v with
  | nil => rfl
  | cons x v =>
    obtain rfl : x = '\n' := hv x rfl
    show Lexeme.Form.runsInto l.kind l.text.toList '\n' = false
    cases hk : l.kind with
    | number =>
      have hsign : ∀ y, Lexeme.Form.isExponentSign y '\n' = false := fun y => Bool.and_false _
      show (false || l.text.toList.getLast?.any (Lexeme.Form.isExponentSign · '\n')) = false
      rw [Bool.false_or]
      cases l.text.toList.getLast? with
      | none => rfl
      | some y => exact hsign y
    | punct => simp [Lexeme.Form.runsInto]
    | newline | whitespace | lineComment | blockComment | identifier | stringLiteral
      | charLiteral => rfl

/-- A lexeme that is read from the rest of a line alone is read where more lines come after it. -/
theorem next_of_line {c₀ c₀' : Cursor} (next : c₀.next .strict = .ok (some (l, c₀')))
    (hc : RestOfLine c₀.rest c e) : c.next .strict = .ok (some (l, c.skip l.text.toList.length)) := by
  have hread := Cursor.reads_of_next next
  have hwhole := Lexeme.isWhole_of_next next
  have hbegins := (Lexeme.next_iff.1 next).1
  have hrest : c.rest = l.text.toList ++ (c₀'.rest ++ e.rest) := by
    rw [hc.before.rest, hread.rest, List.append_assoc]
  rw [hread.rest] at hbegins hc
  refine Lexeme.next_iff.2 ⟨?_, ⟨_, hrest.symm⟩, rfl⟩
  rw [hrest]
  by_cases hw : l.kind = .whitespace
  · rw [hw] at hbegins ⊢
    cases htail : c₀'.rest with
    | nil =>
      -- A line does not end in white space.
      have hsolid := hc.solid _ (List.getLast?_eq_some_getLast (by simp [htail, hwhole.1]))
      have hspace := Lexeme.isSpace_of_isWhole hwhole hw _ (List.getLast_mem hwhole.1)
      simp [htail, hspace] at hsolid
    | cons y v =>
      rw [htail] at hbegins
      exact begins_whitespace_cons hbegins
  by_cases hlc : l.kind = .lineComment
  · -- The comment takes all that is left of the line.
    have hform := Lexeme.form_of_isWhole_lineComment hwhole hlc (c₀'.rest ++ e.rest)
    have hlf : '\n' ∉ c₀'.rest := fun hmem => hc.oneLine (List.mem_append_right _ hmem)
    have hform₀ := Lexeme.form_of_isWhole_lineComment hwhole hlc (c₀'.rest ++ [])
    rw [takeWhile_line hlf hc.stop] at hform
    rw [takeWhile_line hlf (by simp), List.append_nil, hbegins.2.1] at hform₀
    exact ⟨hwhole.1, hform.trans hform₀.symm, by simp [hlc]⟩
  refine (Lexeme.Form.begins_append hw hlc).2 ⟨hwhole, ?_⟩
  cases htail : c₀'.rest with
  | nil => exact runsOn_lineFeed hc.stop
  | cons y v =>
    rw [htail] at hbegins
    exact ((Lexeme.Form.begins_append hw hlc).1 hbegins).2

/-- What is read from the rest of a line alone is skipped, and nothing else. -/
theorem skipTo_of_line {c₀ : Cursor} (hread : (c₀.lexemes .strict).2.2 = none)
    (hc : RestOfLine c₀.rest c e) : (skipTo e.location.offset c).1 = e := by
  induction c₀ using Lexeme.Cursor.lexemes.induct Lexeme.Mode.strict generalizing c with
  | case1 c₀ fault next =>
    rw [Cursor.lexemes_of_fault next] at hread
    cases hread
  | case2 c₀ next =>
    have hnil := hc.before
    rw [Cursor.next_eq_none next] at hnil
    rw [hnil.eq]
    exact skipTo_of_le (Nat.le_refl _)
  | case3 c₀ l c₀' next _ _ _ _ ih =>
    rw [Cursor.lexemes_of_next next] at hread
    have hnext := next_of_line next hc
    have hlt : c.location.offset < e.location.offset := by
      have hoffset := Cursor.offset_skip hc.before.rest
      rw [hc.before.skip, (Cursor.reads_of_next next).rest, Text.byteLength_append] at hoffset
      have hpos := Text.utf8ByteSize_pos (Cursor.reads_of_next next).nonempty
      rw [Text.utf8ByteSize_eq] at hpos
      omega
    rw [skipTo_of_next hlt hnext]
    rw [(Cursor.reads_of_next next).rest] at hc
    exact ih hread hc.after

/-! ## The tokens of a text with a directive -/

theorem reached_of_comesTo (h : ComesTo d b c) {output : String} (hc : Reached c output) :
    Reached d output := by
  induction h with
  | here => exact hc
  | read next _ ih => exact ih (hc.next next)

/-- Tokens begin at the cursor that they are read from, or later, and so does what is no token. -/
theorem offset_le_of_tokensFrom (start : Bool) {output : String} (hc : Reached c output) :
    (∀ ts, tokensFrom start c = .ok ts → ∀ t ∈ ts, c.location.offset ≤ t.span.start) ∧
      ∀ fault location, tokensFrom start c = .error (fault, location) →
        c.location.offset ≤ location.offset := by
  constructor
  · intro ts hts t ht
    have horder := (inOrder_of_readsTokens (readsTokens_of_eq_ok hts) hc).2
    exact (horder.within _ (List.mem_map_of_mem ht)).1
  · intro fault location
    induction start, c using tokensFrom.induct with
    | case1 start c fault' next =>
      rw [tokensFrom_fault next]
      rintro ⟨⟩
      exact Nat.le_refl _
    | case2 start c next =>
      rw [tokensFrom_atEnd next]
      intro h
      cases h
    | case3 start c l c' next =>
      rename_i offset hash line stop after hs hskip ih
      obtain ⟨rfl, hash⟩ := hash
      have hafter : afterDirective c c' = after := congrArg Subtype.val hskip
      obtain ⟨hreached, hoffset, -⟩ := skipTo_spec stop (hc.next next)
      rw [tokensFrom_directive next hash, hafter]
      intro h
      have hle := ih (hafter ▸ hreached) (map_eq_error.1 h)
      have hlt := (Cursor.reads_of_next next).offset_lt
      rw [← hafter] at hle
      exact Nat.le_trans (Nat.le_of_lt hlt) (Nat.le_trans hoffset hle)
    | case4 start c l c' next noDirective trivia ih =>
      rw [tokensFrom_trivia next noDirective trivia]
      intro h
      exact Nat.le_trans (Nat.le_of_lt (Cursor.reads_of_next next).offset_lt) (ih (hc.next next) h)
    | case5 start c l c' next noDirective kind token ih =>
      rw [tokensFrom_token next noDirective token]
      intro h
      exact Nat.le_trans (Nat.le_of_lt (Cursor.reads_of_next next).offset_lt)
        (ih (hc.next next) (map_eq_error.1 h))

/-- From the end of a line, reading tokens goes on with the next line. -/
theorem tokensFrom_of_lineEnd (hstop : ∀ y ∈ e.rest.head?, y = '\n') :
    tokensFrom true e = .ok [] ∨
      ∃ l c', e.next .strict = .ok (some (l, c')) ∧ tokensFrom true e = tokensFrom true c' := by
  cases hrest : e.rest with
  | nil => exact .inl (tokensFrom_atEnd (by rw [Cursor.next, if_pos hrest]))
  | cons y u =>
    rw [hrest] at hstop
    obtain rfl : y = '\n' := hstop y rfl
    have hform : Lexeme.Form.form e.rest = (.newline, 1) := hrest ▸ Lexeme.Form.form_newline u
    have next := Cursor.next_of_blank hform (by simp [hrest]) (by decide)
    exact .inr ⟨_, _, next, tokensFrom_trivia next (by simp [Lexeme.isPunct]) rfl⟩

/-- What is read from the end of a line, be it tokens or none, begins after it. -/
theorem offset_lt_of_lineEnd {output : String} (he : Reached e output)
    (hstop : ∀ y ∈ e.rest.head?, y = '\n') :
    (∀ ts, tokensFrom true e = .ok ts → ∀ t ∈ ts, e.location.offset < t.span.start) ∧
      ∀ fault location, tokensFrom true e = .error (fault, location) →
        e.location.offset < location.offset := by
  obtain h | ⟨l, c', next, h⟩ := tokensFrom_of_lineEnd hstop
  · rw [h]
    refine ⟨?_, nofun⟩
    rintro ts ⟨⟩ t ht
    cases ht
  · have hlt := (Cursor.reads_of_next next).offset_lt
    obtain ⟨htokens, hfault⟩ := offset_le_of_tokensFrom true (he.next next)
    rw [h]
    exact ⟨fun ts hts t ht => Nat.lt_of_lt_of_le hlt (htokens ts hts t ht),
      fun fault location hf => Nat.lt_of_lt_of_le hlt (hfault fault location hf)⟩

/-- Whether a text that stands in another at an offset is one directive of it, from which reading
goes on at a cursor, after some tokens: the cursor is at the end of the line, and what is read from
there, be it tokens or none, begins on a later line. -/
structure IsOneToken (text output : String) (offset : Nat) (before : List Token) (e : Cursor) :
    Prop where
  tokens : tokenize output = (tokensFrom true e).map
    (before ++ ⟨.directive, text, ⟨offset, offset + text.utf8ByteSize⟩⟩ :: ·)
  before : ∀ t ∈ before, t.span.stop ≤ offset
  inText : e.In output
  offset : e.location.offset = offset + text.utf8ByteSize
  atLineEnd : ∀ y ∈ e.rest.head?, y = '\n'
  later : ∀ ts, tokensFrom true e = .ok ts → ∀ t ∈ ts, e.location.offset < t.span.start
  fault : ∀ fault location, tokensFrom true e = .error (fault, location) →
    e.location.offset < location.offset

/-- **A line that begins with `#` is one token of a text, and the next one comes after it**, if the
reading of the text comes to the line and the line alone is read without a fault. -/
theorem isOneToken_of_comesTo {output : String} (ht : IsLine text)
    (hd : ComesTo d true (.ofString output)) (hline : Before text.toList d e)
    (hstop : ∀ y ∈ e.rest.head?, y = '\n') {ls : List Lexeme} (hread : Lexeme.ofText text = .ok ls) :
    ∃ before, IsOneToken text output d.location.offset before e := by
  have hrest := restOfLine_of_isLine ht hline hstop
  have hhead : d.rest.head? = some '#' := by
    rw [hline.rest, List.head?_append, ht.hash]
    rfl
  have next := Cursor.next_of_head hhead
  have hreached := reached_of_comesTo hd (.ofString output)
  have hoffset : e.location.offset = d.location.offset + text.utf8ByteSize := by
    rw [← hline.skip, Cursor.offset_skip hline.rest, Text.utf8ByteSize_eq]
  have hafter : afterDirective d (d.skip 1) = e := by
    have hlt : d.location.offset < e.location.offset := by
      have hpos := Text.utf8ByteSize_pos fun he : text = "" => absurd (he ▸ ht.hash) nofun
      omega
    rw [afterDirective, lineAt_eq ht hrest, ← hoffset, ← skipTo_of_next hlt next]
    exact skipTo_of_line (Lexeme.lexemes_of_ofText hread).1 hrest
  have htoken : tokensFrom true d = (tokensFrom true e).map (.directiveAt d :: ·) := by
    rw [tokensFrom_directive next rfl, hafter]
  obtain ⟨before, heq, hstops⟩ := tokensFrom_of_comesTo hd fun _ => rfl
  have hafterReached : Reached e output := by
    rw [← hafter]
    exact (skipTo_spec _ (hreached.next next)).1
  obtain ⟨hlater, hfault⟩ := offset_lt_of_lineEnd hafterReached hstop
  refine ⟨before, ?_, hstops, hafterReached.inText, hoffset, hstop, hlater, hfault⟩
  rw [tokenize, heq, htoken, Token.directiveAt, lineAt_eq ht hrest]
  cases tokensFrom true e <;> rfl

end ShaderPass.Shader
