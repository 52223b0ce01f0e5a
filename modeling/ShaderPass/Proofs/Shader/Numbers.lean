import ShaderPass.Proofs.Lexeme.Forms
import ShaderPass.Proofs.Shader.Assignments
import ShaderPass.Proofs.Shader.Positions

/-!
# Proofs/Shader/Numbers — the tokens that the numbers of states are read from

    DepthBias = -0.5;            a number token
    DepthBias = -nan;            an identifier, and a number all the same
    DepthBias = -"1";  -true;    refused

After a sign and in a color the text of a token is read as a number, whatever the kind of the token.
Of the tokens of a text only two sorts read as one: number tokens, and identifiers that spell a number
that is not finite (`isNumber_of_tokenize`).  So the numbers of an accepted text come from number
tokens, but for these words (`numbers_of_parse`).
-/

namespace ShaderPass

/-! ## What reads as a number -/

namespace Number

variable {text : String} {cs ds : List Char} {c : Char}

/-- Whether a text spells a number that is not finite, in any case and with any suffixes. -/
def isNonFinite (text : String) : Bool :=
  let word := (dropSuffixes isSuffix text.toList).map Char.toLower
  word == infinityWord || word == nanWord

/-- Whether a text starts with a digit, or with a point and a digit. -/
def startsNumber : List Char → Bool
  | '.' :: d :: _ => d.isDigit
  | d :: _ => d.isDigit
  | [] => false

theorem startsNumber_of_isDigit (h : c.isDigit = true) (cs : List Char) :
    startsNumber (c :: cs) = true := by
  have hdot : c ≠ '.' := by
    rintro rfl
    exact absurd h (by decide)
  unfold startsNumber
  split
  next heq => exact absurd (List.cons.inj heq).1 hdot
  next heq => exact (List.cons.inj heq).1 ▸ h
  next heq => cases heq

theorem startsNumber_append (h : startsNumber cs = true) (ds : List Char) :
    startsNumber (cs ++ ds) = true := by
  unfold startsNumber at h
  split at h
  next => exact h
  next => exact startsNumber_of_isDigit h _
  next => cases h

theorem prefix_dropSuffixes (p : Char → Bool) (cs : List Char) : dropSuffixes p cs <+: cs := by
  rw [dropSuffixes, ← List.reverse_suffix, List.reverse_reverse]
  exact List.dropWhile_suffix p

/-- A decimal number has a digit on one side of its point. -/
theorem startsNumber_of_readDecimal (h : (readDecimal cs).isSome = true) :
    startsNumber cs = true := by
  cases cs with
  | nil => cases h
  | cons c cs =>
    by_cases hc : c.isDigit = true
    · exact startsNumber_of_isDigit hc cs
    · rw [readDecimal, List.takeWhile_cons_of_neg hc, List.dropWhile_cons_of_neg hc] at h
      split at h
      next fraction rest heq =>
        have nonempty : fraction ≠ [] := by
          rintro rfl
          cases h
        split at heq
        next after hpoint =>
          obtain ⟨rfl, rfl⟩ := List.cons.inj hpoint
          obtain ⟨hfraction, -⟩ := Prod.mk.inj heq
          cases cs with
          | nil => exact absurd hfraction.symm nonempty
          | cons d ds =>
            by_cases hd : d.isDigit = true
            · exact hd
            · rw [List.takeWhile_cons_of_neg hd] at hfraction
              exact absurd hfraction.symm nonempty
        next => exact absurd (Prod.mk.inj heq).1.symm nonempty

/-- **What reads as a number** starts as one, or it spells a number that is not finite. -/
theorem startsNumber_of_readLiteral (h : (readLiteral text).isSome = true) :
    isNonFinite text = true ∨ startsNumber text.toList = true := by
  unfold readLiteral at h
  split at h
  next heq => exact .inr (heq ▸ rfl)
  next heq => exact .inr (heq ▸ rfl)
  next =>
    unfold readDecimalLiteral at h
    simp only at h
    split at h
    next hinf => exact .inl (by simp [isNonFinite, hinf])
    next =>
      split at h
      next hnan => exact .inl (by simp [isNonFinite, hnan])
      next =>
        rw [Option.isSome_map] at h
        obtain ⟨suffix, hsuffix⟩ := prefix_dropSuffixes isSuffix text.toList
        exact .inr (hsuffix ▸ startsNumber_append (startsNumber_of_readDecimal h) suffix)

theorem isIdentifierStart_of_toLower {d : Char} (h : c.toLower = d) (hd : d.isAlpha = true) :
    Lexeme.Form.isIdentifierStart c = true := by
  unfold Char.toLower at h
  split at h
  next hupper =>
    have upper : c.isUpper = true := by simpa [Char.isUpper] using hupper
    simp [Lexeme.Form.isIdentifierStart, Char.isAlpha, upper]
  next => simp [Lexeme.Form.isIdentifierStart, h, hd]

/-- The spelling of a number that is not finite starts as an identifier does. -/
theorem isIdentifierStart_of_isNonFinite (h : isNonFinite text = true) :
    ∃ d ds, text.toList = d :: ds ∧ Lexeme.Form.isIdentifierStart d = true := by
  obtain ⟨suffix, hsuffix⟩ := prefix_dropSuffixes isSuffix text.toList
  have starts {d : Char} {ds : List Char} (hd : d.isAlpha = true)
      (hword : (dropSuffixes isSuffix text.toList).map Char.toLower = d :: ds) :
      ∃ d ds, text.toList = d :: ds ∧ Lexeme.Form.isIdentifierStart d = true := by
    obtain ⟨c, cs, hcs, hc, -⟩ := List.map_eq_cons_iff.1 hword
    exact ⟨c, cs ++ suffix, by rw [← hsuffix, hcs]; rfl, isIdentifierStart_of_toLower hc hd⟩
  unfold isNonFinite at h
  simp only [Bool.or_eq_true, beq_iff_eq] at h
  rcases h with h | h
  · exact starts (by decide) h
  · exact starts (by decide) h

end Number

/-! ## Tokens that read as numbers -/

open Lexeme (Cursor)
open Number (isNonFinite startsNumber readLiteral)

theorem Lexeme.Form.form_of_startsNumber {cs : List Char} (h : startsNumber cs = true) :
    (form cs).1 = .number := by
  unfold startsNumber at h
  split at h
  next => rw [form_dot_digit h]
  next => rw [form_digit h]
  next => cases h

/-- A lexeme that reads as a number is a number, or a word for one that is not finite. -/
theorem Lexeme.Cursor.Reads.isNumber {c c' : Cursor} {l : Lexeme} (reads : c.Reads l c')
    (h : (readLiteral l.text).isSome = true) :
    l.kind = .number ∨ l.kind = .identifier ∧ isNonFinite l.text = true := by
  have kind : l.kind = (Form.form (l.text.toList ++ c'.rest)).1 := by rw [← reads.rest, reads.form]
  rcases Number.startsNumber_of_readLiteral h with word | starts
  · obtain ⟨d, ds, htext, hd⟩ := Number.isIdentifierStart_of_isNonFinite word
    rw [htext, List.cons_append, Form.form_identifier hd] at kind
    exact .inr ⟨kind, word⟩
  · rw [Form.form_of_startsNumber (Number.startsNumber_append starts _)] at kind
    exact .inl kind

/-- The words that have a class. -/
def WordClass.words : List String :=
  Keyword.all.map Keyword.spelling ++ ["true", "false"] ++ types ++ qualifiers ++ controls

theorem WordClass.mem_words {word : String} {c : WordClass} (h : classify word = some c) :
    word ∈ words := by
  simp only [words, List.mem_append, List.mem_map, List.mem_cons, List.not_mem_nil, or_false]
  unfold classify at h
  split at h
  next k hk =>
    have spelled := List.find?_some (p := fun k : Keyword => decide (k.spelling = word)) hk
    have spelled := of_decide_eq_true spelled
    exact .inl (.inl (.inl (.inl ⟨k, Keyword.mem_all k, spelled⟩)))
  next =>
    repeat' split at h
    all_goals simp_all

/-- No word that has a class is one for a number. -/
theorem WordClass.classify_of_isNonFinite {word : String} (h : isNonFinite word = true) :
    classify word = none := by
  have noWord : ∀ word ∈ words, isNonFinite word = false := by decide +kernel
  cases hc : classify word with
  | none => rfl
  | some c => exact absurd h (by rw [noWord word (mem_words hc)]; exact Bool.false_ne_true)

namespace Shader

open Grammar

variable {R : Rules} {ts rest : List Token} {t : Token} {text : String}

/-- Whether a token is an identifier that spells a number that is not finite. -/
def Token.isNonFinite (t : Token) : Bool := t.kind == .identifier && Number.isNonFinite t.text

/-- An item takes all that can belong to it; numbers are number tokens, and words for numbers that are
not finite. -/
def Grammar.Rules.worded : Rules := ⟨True, fun t => t.kind = .number ∨ t.isNonFinite = true⟩

theorem isNumber_of_readsTokens {start : Bool} {c : Cursor} (h : ReadsTokens start c ts) :
    ∀ t ∈ ts, (readLiteral t.text).isSome = true → Rules.worded.IsNumber t := by
  induction h with
  | atEnd => exact List.forall_mem_nil _
  | @directive c c' l ts next hash _ ih =>
    refine List.forall_mem_cons.2 ⟨fun h => ?_, ih⟩
    -- A number starts with no `#`.
    obtain ⟨ds, hds⟩ := head_lineAt (Cursor.reads_of_next next) hash
    rcases Number.startsNumber_of_readLiteral h with word | starts
    · obtain ⟨d, ds', htext, hd⟩ := Number.isIdentifierStart_of_isNonFinite word
      obtain ⟨rfl, -⟩ := List.cons.inj (hds.symm.trans htext)
      exact absurd hd (by decide)
    · rw [show (Token.directiveAt c).text.toList = '#' :: ds from hds] at starts
      simp [startsNumber] at starts
  | trivia _ _ _ _ ih => exact ih
  | @token start c c' l kind ts next _ token _ ih =>
    refine List.forall_mem_cons.2 ⟨fun h => ?_, ih⟩
    rcases (Cursor.reads_of_next next).isNumber h with number | ⟨identifier, word⟩
    · rw [TokenKind.ofLexeme?, number] at token
      exact .inl (Option.some.inj token).symm
    · rw [TokenKind.ofLexeme?, identifier] at token
      simp only [WordClass.classify_of_isNonFinite word] at token
      refine .inr (Bool.and_eq_true_iff.2 ⟨beq_iff_eq.2 (Option.some.inj token).symm, word⟩)

/-- **What reads as a number in a text** is a number token or a word for one that is not finite. -/
theorem isNumber_of_tokenize (h : tokenize text = .ok ts) :
    ∀ t ∈ ts, (readLiteral t.text).isSome = true → Rules.worded.IsNumber t :=
  isNumber_of_readsTokens (readsTokens_of_eq_ok h)

/-! ## Where numbers stand -/

/-- Whether no word for a number comes after what a number can come after. -/
def NoWords (ts : List Token) : Prop :=
  ts.IsChain fun p t => precedesNumber p = true → t.isNonFinite = false

instance : Decidable (NoWords ts) := inferInstanceAs (Decidable (List.IsChain _ ts))

theorem NoWords.numbersAgree (h : NoWords ts) : NumbersAgree .worded .strict ts :=
  h.imp fun _ _ noWord hp _ number =>
    number.resolve_right (by rw [noWord hp]; exact Bool.false_ne_true)

/-- Every state that a pass assigns has a value in its text. -/
theorem Grammar.StateList.exists_stateText {block : StateBlock} {es : List StateEntry}
    (h : StateList R block ts es rest) : ∀ e ∈ es, ∃ us after, us <:+ ts ∧ StateText R us e.2 after := by
  induction h with
  | close => exact List.forall_mem_nil _
  | @entry t eq ts ts' _ _ _ _ _ _ _ _ _ target _ value separator _ ih =>
    have hvalue : ts' <:+ t :: ts :=
      ((List.suffix_cons _ _).trans target.suffix).trans (List.suffix_cons _ _)
    refine List.forall_mem_cons.2 ⟨⟨_, _, hvalue, value⟩, fun e he => ?_⟩
    obtain ⟨us, after, hs, h⟩ := ih e he
    exact ⟨us, after, ((hs.trans separator.suffix).trans value.suffix).trans hvalue, h⟩

theorem Grammar.Item.exists_stateText {i : PassItem} (h : Item R ts i rest) :
    ∀ e ∈ i.stateEntries, ∃ us after, us <:+ ts ∧ StateText R us e.2 after := by
  cases h with
  | tags | stage | shared => exact List.forall_mem_nil _
  | states _ entries =>
    obtain ⟨_, entries⟩ := entries
    intro e he
    obtain ⟨us, after, hs, h⟩ := entries.exists_stateText e he
    exact ⟨us, after, (hs.trans (List.suffix_cons _ _)).trans (List.suffix_cons _ _), h⟩
  | queue _ entry =>
    obtain ⟨_, value, _⟩ := entry
    exact List.forall_mem_singleton.2 ⟨_, _, List.suffix_append [_, _] _, value⟩

/-- Every state that is assigned in a file has its value among the tokens of the file. -/
theorem Grammar.File.exists_stateText {tree : Tree} (h : File R ts tree) :
    ∀ s ∈ tree.subShaders, ∀ p ∈ s.passes, ∀ e ∈ p.assignments,
      ∃ us after, us <:+ ts ∧ StateText R us e.2 after := by
  intro s hs p hp e he
  obtain ⟨us, after, hsuffix, pass⟩ := h.exists_pass s hs p hp
  obtain ⟨i, hi, he⟩ := List.mem_flatMap.1 he
  obtain ⟨vs, after', hsuffix', item⟩ := pass.exists_item i hi
  obtain ⟨ws, after'', hsuffix'', value⟩ := item.exists_stateText e he
  exact ⟨ws, after'', (hsuffix''.trans hsuffix').trans hsuffix, value⟩

/-- Whether a token is refused wherever a number is read: after a sign, and as a component of a color
with a sign and without. -/
structure Token.RefusedAsNumber (t : Token) : Prop where
  negative : ∀ (place : Place) (m : Token) (rest : List Token), m.isPunct '-' = true →
    readStateValue place (m :: t :: rest) = fail place (t :: rest) .noNegativeNumber
  component : ∀ (place : Place) (rest : List Token), t.isPunct '-' = false →
    readComponents place (t :: rest) = fail place (t :: rest) .noComponent
  negativeComponent : ∀ (place : Place) (m : Token) (rest : List Token), m.isPunct '-' = true →
    readComponents place (m :: t :: rest) = fail place (t :: rest) .noComponent

theorem readComponents_eq_fail (place : Place) {us : List Token} (heat : eat '-' ts = t :: us)
    (h : readLiteral t.text = none) : readComponents place ts = fail place (t :: us) .noComponent := by
  rw [readComponents.eq_def]
  split
  next he => cases heat.symm.trans he
  next he =>
    obtain ⟨rfl, rfl⟩ := List.cons.inj (heat.symm.trans he)
    simp [signedNumber, h]

theorem refusedAsNumber_of_readLiteral (h : readLiteral t.text = none) : t.RefusedAsNumber where
  negative place m rest minus := by
    simp [readStateValue, Token.isPunct_iff.1 minus, signedNumber, h]
  component place rest noMinus :=
    readComponents_eq_fail place (if_neg (by rw [noMinus]; exact Bool.false_ne_true)) h
  negativeComponent place m rest minus := readComponents_eq_fail place (eat_cons minus) h

/-- **The numbers of states.**  A text is read just when its tokens derive with number tokens, and words
for numbers that are not finite, after signs and in colors; and with number tokens alone if there are no
such words.  Every other token is refused there, and a text with tokens is never refused for one of its
lexemes.  So a number that a state is assigned, or that is in its color, stands in the text as one. -/
theorem numbers_of_parse (map : Source.Map) (h : tokenize text = .ok ts) :
    (∀ tree, (parse text map).result = .ok tree ↔ File .worded ts tree) ∧
      (NoWords ts → ∀ tree, (parse text map).result = .ok tree ↔ File .strict ts tree) ∧
      (∀ tree, (parse text map).result = .ok tree →
        ∀ s ∈ tree.subShaders, ∀ p ∈ s.passes, ∀ e ∈ p.assignments, ∃ us after, us <:+ ts ∧
          StateText .worded us e.2 after ∧ (NoWords ts → StateText .strict us e.2 after)) ∧
      (∀ t ∈ ts, ¬Rules.worded.IsNumber t → t.RefusedAsNumber) ∧
      ∀ e, (parse text map).result = .error e → e.cause.stage = .parse := by
  have isNumber := isNumber_of_tokenize h
  have derives : ∀ tree, (parse text map).result = .ok tree ↔ File .worded ts tree := by
    intro tree
    rw [parse_result map h]
    constructor
    · intro hread
      exact (file_of_readTokens hread).mono (fun _ => trivial)
        (numbersAgree_of_forall fun t ht reads _ => isNumber t ht reads)
    · intro hfile
      exact readTokens_eq_ok
        (hfile.mono (fun _ => trivial) (numbersAgree_of_forall fun _ _ _ _ => trivial))
  refine ⟨derives, fun noWords tree => ⟨fun hread => ?_, fun hfile => ?_⟩, ?_, ?_, ?_⟩
  · exact ((derives tree).1 hread).mono (fun _ => trivial) noWords.numbersAgree
  · refine (derives tree).2 (hfile.mono (fun _ => trivial) ?_)
    exact numbersAgree_of_forall fun _ _ _ number => .inl number
  · intro tree hread s hs p hp e he
    obtain ⟨us, after, hsuffix, value⟩ := ((derives tree).1 hread).exists_stateText s hs p hp e he
    refine ⟨us, after, hsuffix, value, fun noWords => value.mono (fun _ => trivial) ?_⟩
    exact noWords.numbersAgree.of_suffix hsuffix
  · intro t ht noNumber
    refine refusedAsNumber_of_readLiteral (Option.not_isSome_iff_eq_none.1 fun reads => ?_)
    exact noNumber (isNumber t ht reads)
  · intro e he
    rw [parse_result map h] at he
    exact (refuses_readTokens _ _ e he).stage

/-- A state with a hexadecimal number behind a sign, in a text without words for numbers. -/
theorem numbers_of_parse_apply : ∃ ts tree,
    tokenize "SubShader{Pass{RasterState{DepthBias=-0x1}}}" = .ok ts ∧ NoWords ts ∧
      (parse "SubShader{Pass{RasterState{DepthBias=-0x1}}}" default).result = .ok tree ∧
      File .strict ts tree := by
  have noWords : (tokenize "SubShader{Pass{RasterState{DepthBias=-0x1}}}").toOption.any
      (fun ts => decide (NoWords ts)) = true := by decide +kernel
  have reads : (parse "SubShader{Pass{RasterState{DepthBias=-0x1}}}"
      default).result.isOk = true := by decide +kernel
  rcases htokens : tokenize "SubShader{Pass{RasterState{DepthBias=-0x1}}}" with e | ts
  · rw [htokens] at noWords
    cases noWords
  · rcases hread : (parse "SubShader{Pass{RasterState{DepthBias=-0x1}}}"
        default).result with e | tree
    · rw [hread] at reads
      cases reads
    · rw [htokens] at noWords
      have noWords := of_decide_eq_true noWords
      exact ⟨ts, tree, rfl, noWords, rfl, ((numbers_of_parse default htokens).2.1 noWords tree).1 hread⟩

/-- **A word is a number after a sign**: a state has a number, and the text has no number token. -/
theorem exists_number_of_word : ∃ ts p,
    tokenize "SubShader{Pass{RasterState{DepthBias=-nan}}}" = .ok ts ∧
      (parse "SubShader{Pass{RasterState{DepthBias=-nan}}}" default).result =
        .ok ⟨none, [⟨none, [.pass p], ⟨0, 44⟩⟩]⟩ ∧
      p.states.get? ⟨.depthBias, 0⟩ = some (.constant (.number Number.Double.nan.negate)) ∧
      ∀ t ∈ ts, t.kind ≠ .number := by
  have noNumber : (tokenize "SubShader{Pass{RasterState{DepthBias=-nan}}}").toOption.any
      (fun ts => ts.all fun t => decide (t.kind ≠ .number)) = true := by decide +kernel
  rcases htokens : tokenize "SubShader{Pass{RasterState{DepthBias=-nan}}}" with e | ts
  · rw [htokens] at noNumber
    cases noNumber
  · rw [htokens] at noNumber
    refine ⟨ts, ⟨none, [.states [(⟨.depthBias, 0⟩, .constant (.number Number.Double.nan.negate))]],
      ⟨10, 43⟩⟩, rfl, by decide +kernel, States.get?_ofList _ _, fun t ht => ?_⟩
    exact of_decide_eq_true (List.all_eq_true.1 noNumber t ht)

end Shader

end ShaderPass
