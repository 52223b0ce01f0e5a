import ShaderPass.Proofs.Preprocess.OnLines
import ShaderPass.Proofs.Preprocess.Rescan
import ShaderPass.Proofs.Shader.Directives

/-!
# Proofs/Passed — what is passed through is one token of the output

    source    a/**/ // b ⏎ #version \⏎ 300 es // c ⏎ d
    output    a/**/ // b ⏎ #version 300 es⏎⏎ d
    tokens    a            └───one token──┘   d

A directive that is passed through stands on a line of its own, so it is one token of the output,
with the text that was passed through, and what is read after it begins on a later line
(`Session.isOneToken_of_passed`).  Directives are read leniently but the output strictly, and what is
put out before a directive can run together to a comment: so the theorem asks for the texts that are
passed through to be read without a fault, and for comments to stay what they were.  Where a quote
stands alone in such a text, the output has no tokens at all (`Session.faulted_of_quote`).
-/

namespace ShaderPass.Preprocess

open Lexeme (Cursor IsWhole chars CommentsStay)
open Lexeme.Cursor (ComesTo Before)
open Source (Piece)

variable {es pre post : List Emission} {e : Emission} {ls : List Lexeme} {lss : List (List Lexeme)}
  {b b' : Bool}

/-! ## The lexemes of an output -/

/-- The lexemes that something put out is made of. -/
def Emission.lexemes : Emission → Except (Lexeme.Fault × Location) (List Lexeme)
  | .token t => .ok [t.toLexeme]
  | .lineEnd _ _ => .ok [⟨.newline, "\n"⟩]
  | .passed text _ => Lexeme.ofText text

theorem toList_of_lexemes (h : e.lexemes = .ok ls) : e.piece.text.toList = chars ls := by
  cases e with
  | token t =>
    cases h
    exact (List.append_nil _).symm
  | lineEnd unit offset =>
    cases h
    exact (List.append_nil _).symm
  | passed text origin => exact Lexeme.toList_of_ofText h

theorem output_cons (q : Piece) (qs : List Piece) :
    Piece.output (q :: qs) = q.text ++ Piece.output qs := by
  rw [← List.singleton_append, Piece.output_append, Piece.output_singleton]

/-- A text that is put out is made of the lexemes that it is put out in. -/
theorem chars_of_lexemes (h : es.mapM Emission.lexemes = .ok lss) :
    (Piece.output (es.map Emission.piece)).toList = chars lss.flatten := by
  have h := mapM_eq_ok_iff.1 h
  induction h with
  | nil => rfl
  | @cons e ls es lss he _ ih =>
    rw [List.map_cons, output_cons, String.toList_append, toList_of_lexemes he,
      ih (mapM_eq_ok_iff.2 ‹_›), List.flatten_cons, Lexeme.chars_append]

theorem isWhole_of_lexemes (h : es.mapM Emission.lexemes = .ok lss)
    (hwhole : ∀ l ∈ es.filterMap Emission.lexeme?, l.IsWhole) : ∀ l ∈ lss.flatten, l.IsWhole := by
  have h := mapM_eq_ok_iff.1 h
  induction h with
  | nil => exact List.forall_mem_nil _
  | @cons e ls es lss he _ ih =>
    cases e with
    | token t =>
      cases he
      obtain ⟨ht, hwhole⟩ := List.forall_mem_cons.1 hwhole
      exact List.forall_mem_cons.2 ⟨ht, ih (mapM_eq_ok_iff.2 ‹_›) hwhole⟩
    | lineEnd =>
      cases he
      obtain ⟨hfeed, hwhole⟩ := List.forall_mem_cons.1 hwhole
      exact List.forall_mem_cons.2 ⟨hfeed, ih (mapM_eq_ok_iff.2 ‹_›) hwhole⟩
    | passed =>
      exact List.forall_mem_append.2
        ⟨Lexeme.isWhole_of_ofText he, ih (mapM_eq_ok_iff.2 ‹_›) hwhole⟩

/-- A line starts after the lexemes if one does after what is put out. -/
theorem startsLine_of_lexemes (h : es.mapM Emission.lexemes = .ok lss) (hb : b = true → b' = true)
    (hstarts : es.foldl Emission.startsLine b = true) :
    lss.flatten.foldl Lexeme.startsLine b' = true := by
  have h := mapM_eq_ok_iff.1 h
  induction h generalizing b b' with
  | nil => exact hb hstarts
  | @cons e ls es lss he _ ih =>
    rw [List.flatten_cons, List.foldl_append]
    refine ih (mapM_eq_ok_iff.2 ‹_›) (fun hstart => ?_) hstarts
    cases e with
    | token t =>
      cases he
      exact Lexeme.startsLine_mono hb hstart
    | lineEnd =>
      cases he
      rfl
    | passed => cases hstart

/-! ## A directive of the output -/

namespace Session

variable {p : Session} {source output text : String} {origin : Macro.Origin}

/-- Where a directive is passed through, the output has its text on a line of its own. -/
theorem exists_line_of_passed (h : (p.tryProcess source).1 = .ok output)
    (hpassed : p.emissions source = pre ++ .passed text origin :: post) :
    Directive.IsLine text ∧ pre.foldl Emission.startsLine true = true ∧
      ∃ rest : List Char, (∀ y ∈ rest.head?, y = '\n') ∧
        output.toList = (Piece.output (pre.map Emission.piece)).toList ++ (text.toList ++ rest) := by
  have hlines := onLines_emissions h
  rw [hpassed] at hlines
  obtain ⟨⟨hstarts, hline, hnext⟩, -⟩ := And.imp_left (· text rfl) (onLines_of_append hlines)
  refine ⟨hline, hstarts, (Piece.output (post.map Emission.piece)).toList, ?_, ?_⟩
  · cases post with
    | nil => exact nofun
    | cons e post =>
      have he := hnext e rfl
      cases e with
      | token | passed => cases he
      | lineEnd unit offset =>
        have hfeed : (Emission.lineEnd unit offset).piece.text.toList = ['\n'] :=
          show "\n".toList = ['\n'] by decide
        rw [List.map_cons, output_cons, String.toList_append, hfeed]
        exact fun y hy => (Option.some.inj hy).symm
  · have houtput : output = Piece.output ((p.emissions source).map Emission.piece) :=
      (runs_of_tryProcess h).2
    rw [houtput, hpassed, List.map_append, Piece.output_append, List.map_cons, output_cons,
      String.toList_append, String.toList_append]
    rfl

/-- **A directive that is passed through is one token of the output of a source that is accepted, and
what is read after it begins on a later line**, where the texts that are passed through up to there
are read without a fault and comments stay what they were. -/
theorem isOneToken_of_passed (hp : p.Reachable) (h : (p.tryProcess source).1 = .ok output)
    (hpassed : p.emissions source = pre ++ .passed text origin :: post)
    (hpre : pre.mapM Emission.lexemes = .ok lss) (hcomments : CommentsStay lss.flatten)
    (hread : Lexeme.ofText text = .ok ls) :
    ∃ before after, Shader.IsOneToken text output (Piece.size (pre.map Emission.piece)) before
      after := by
  obtain ⟨hline, hstarts, rest, hstop, houtput⟩ := exists_line_of_passed h hpassed
  rw [chars_of_lexemes hpre] at houtput
  have hall : ∀ l ∈ (p.emissions source).filterMap Emission.lexeme?, l.IsWhole := isWhole_lexemes hp
  rw [hpassed, List.filterMap_append] at hall
  have hwhole := isWhole_of_lexemes hpre (List.forall_mem_append.1 hall).1
  obtain ⟨hd, hdrest⟩ := Before.of_rest (c := .ofString output) houtput
  obtain ⟨he, herest⟩ := Before.of_rest hdrest
  have hhead : ((Cursor.ofString output).skip (chars lss.flatten).length).rest.head? = some '#' := by
    rw [hdrest, List.head?_append, hline.hash]
    rfl
  have hcomes := (Lexeme.comesTo_of_lexemes hhead hwhole hcomments
    (startsLine_of_lexemes hpre id hstarts)).1 [] _ (List.forall_mem_nil _) (absurd rfl) hd
  obtain ⟨before, hone⟩ :=
    Shader.isOneToken_of_comesTo hline hcomes he (herest.symm ▸ hstop) hread
  have hsize : ((Cursor.ofString output).skip (chars lss.flatten).length).location.offset =
      Piece.size (pre.map Emission.piece) := by
    rw [Cursor.offset_skip houtput, Piece.size, Text.utf8ByteSize_eq, chars_of_lexemes hpre]
    exact Nat.zero_add _
  exact ⟨before, _, hsize ▸ hone⟩

/-- A directive after a comment and a blank. -/
theorem isOneToken_of_passed_apply :
    (Session.new.tryProcess "// b\n #line 3\nc").1 = .ok "// b\n #line 3\nc" ∧
      ∃ before after, Shader.IsOneToken "#line 3" "// b\n #line 3\nc" 6 before after := by
  have accepted : (Session.new.tryProcess "// b\n #line 3\nc").1 = .ok "// b\n #line 3\nc" := by cbv
  have emissions : Session.new.emissions "// b\n #line 3\nc" =
      [.token ⟨⟨.lineComment, "// b"⟩, ⟨0, 0⟩, true, []⟩,
        .token ⟨⟨.newline, "\n"⟩, ⟨0, 4⟩, true, []⟩,
        .token ⟨⟨.whitespace, " "⟩, ⟨0, 5⟩, true, []⟩] ++
      .passed "#line 3" ⟨0, 6⟩ :: [.lineEnd 0 13,
        .token ⟨⟨.identifier, "c"⟩, ⟨0, 14⟩, true, []⟩] := by cbv
  have read : Lexeme.ofText "#line 3" =
      .ok [⟨.punct, "#"⟩, ⟨.identifier, "line"⟩, ⟨.whitespace, " "⟩, ⟨.number, "3"⟩] := by cbv
  have comments : CommentsStay [⟨.lineComment, "// b"⟩, ⟨.newline, "\n"⟩, ⟨.whitespace, " "⟩] := by
    decide
  exact ⟨accepted, isOneToken_of_passed .new accepted emissions rfl comments read⟩

/-- A quote that nothing closes is passed through, but the output that it stands in has no tokens. -/
theorem faulted_of_quote : (Session.new.tryProcess "#pragma don't\n").1 = .ok "#pragma don't\n" ∧
    Session.new.emissions "#pragma don't\n" =
      [.passed "#pragma don't" ⟨0, 0⟩, .lineEnd 0 13] ∧
    Shader.tokenize "#pragma don't\n" = .error (.unterminatedCharacter, ⟨11, 1, 12⟩) := by
  exact ⟨by cbv, by cbv, by decide +kernel⟩

end Session

end ShaderPass.Preprocess
