import ShaderPass.Proofs.Directive.FreeText
import ShaderPass.Proofs.Directive.Openings
import ShaderPass.Proofs.Macro.Equations
import ShaderPass.Proofs.Preprocess.Operands
import ShaderPass.Proofs.Preprocess.Step

/-!
# Proofs/Preprocess/Definedness — asking whether a name has a macro

    #ifndef F            the table is asked for F
    #if ! defined ( F )  ! defined ( F )  ──▸  ! 1  ──▸  0      nothing left to expand

A line can ask for a name in two ways.  `#ifdef` has it looked up; a condition is read, has
`defined` replaced, is expanded, written out and evaluated.  Both give what the table has
(`handle_eq_of_opensIf`): the trivia in a condition play no part while `defined` is replaced
(`replaceDefined_significant`), the name is gone before the macros are expanded, and no macro
replaces anything of what is left (`conditionHolds_of_replaced`).  So the name may be that of any
macro, or `defined` itself.
-/

namespace ShaderPass.Preprocess

open Condition (Spelled Writes tokenSpelling)
open Directive (IsGap LineOf)
open Lexeme (IsName Rescans chars)
open Macro (Token Table Origin)

variable {macros : Table} {origin : Origin} {text name line : String} {t : Token} {ts : List Token}

/-! ## Trivia play no part -/

/-- The tokens of a condition that do more than separate others. -/
def significant (ts : List Token) : List Token := ts.filter fun t => t.isSignificant

theorem significant_cons_of_pos (h : t.isSignificant = true) (ts : List Token) :
    significant (t :: ts) = t :: significant ts := List.filter_cons_of_pos h

theorem significant_cons_of_neg (h : t.isSignificant = false) (ts : List Token) :
    significant (t :: ts) = significant ts := List.filter_cons_of_neg (Bool.eq_false_iff.1 h)

theorem isSeparator_of_not_significant (h : t.isSignificant = false) : IsSeparator t := by
  rw [Lexeme.isSignificant, Bool.and_eq_false_iff, bne_eq_false_iff_eq, Bool.not_eq_false'] at h
  exact h

theorem not_significant_of_isTrivia (h : t.isTrivia = true) : t.isSignificant = false := by
  rw [Lexeme.isSignificant, h, Bool.not_true, Bool.and_false]

theorem significant_of_identifier (h : t.kind = .identifier) : t.isSignificant = true := by
  rw [Lexeme.isSignificant, Lexeme.isTrivia, h]
  rfl

theorem significant_skipTrivia (ts : List Token) :
    significant (skipTrivia ts) = significant ts := by
  induction ts with
  | nil => rfl
  | cons t ts ih =>
    by_cases ht : t.isTrivia = true
    · have hskip : skipTrivia (t :: ts) = skipTrivia ts := List.dropWhile_cons_of_pos ht
      rw [hskip, ih, significant_cons_of_neg (not_significant_of_isTrivia ht)]
    · have hskip : skipTrivia (t :: ts) = t :: ts := List.dropWhile_cons_of_neg ht
      rw [hskip]

theorem skipTrivia_significant (ts : List Token) :
    skipTrivia (significant ts) = significant ts := by
  rw [skipTrivia, List.dropWhile_eq_self_iff]
  intro hpos htrivia
  have hs := (List.mem_filter.1 (List.getElem_mem hpos)).2
  rw [not_significant_of_isTrivia htrivia] at hs
  cases hs

/-- What is found after trivia is found where there are none, if no line ends. -/
theorem skipTrivia_significant_of_cons {rest : List Token} (hlines : ∀ t ∈ ts, t.kind ≠ .newline)
    (h : skipTrivia ts = t :: rest) : skipTrivia (significant ts) = t :: significant rest ∧
      ∀ u ∈ rest, u.kind ≠ .newline := by
  have hsuffix : t :: rest <:+ ts := h ▸ List.dropWhile_suffix _
  have htrivia := List.head?_dropWhile_not (fun t : Token => t.isTrivia) ts
  rw [show ts.dropWhile (fun t => t.isTrivia) = t :: rest from h] at htrivia
  have ht : t.isSignificant = true := by
    rw [Lexeme.isSignificant, Bool.and_eq_true, bne_iff_ne, Bool.not_eq_true']
    exact ⟨hlines t (hsuffix.subset List.mem_cons_self), htrivia⟩
  refine ⟨?_, fun u hu => hlines u (hsuffix.subset (List.mem_cons_of_mem t hu))⟩
  rw [skipTrivia_significant, ← significant_skipTrivia, h, significant_cons_of_pos ht]

theorem skipTrivia_significant_of_nil (h : skipTrivia ts = []) :
    skipTrivia (significant ts) = [] := by
  rw [skipTrivia_significant, ← significant_skipTrivia, h]
  rfl

theorem definedName_significant (hlines : ∀ t ∈ ts, t.kind ≠ .newline) :
    definedName (significant ts) = (definedName ts).map fun r => (r.1, significant r.2) := by
  conv_rhs => rw [definedName]
  rw [definedName]
  cases hfirst : skipTrivia ts with
  | nil =>
    rw [skipTrivia_significant_of_nil hfirst]
    rfl
  | cons t rest =>
    obtain ⟨hrest, hlines⟩ := skipTrivia_significant_of_cons hlines hfirst
    rw [hrest]
    dsimp only
    split
    next =>
      cases hname : skipTrivia rest with
      | nil =>
        rw [skipTrivia_significant_of_nil hname]
        rfl
      | cons name after =>
        obtain ⟨hafter, hlines⟩ := skipTrivia_significant_of_cons hlines hname
        rw [hafter]
        dsimp only
        split
        next =>
          cases hclosing : skipTrivia after with
          | nil =>
            rw [skipTrivia_significant_of_nil hclosing]
            rfl
          | cons closing last =>
            rw [(skipTrivia_significant_of_cons hlines hclosing).1]
            dsimp only
            split <;> rfl
        next => rfl
    next => split <;> rfl

/-- **`defined` is replaced whatever trivia stand around it and its name.** -/
theorem replaceDefined_significant (hlines : ∀ t ∈ ts, t.kind ≠ .newline) :
    replaceDefined macros (significant ts) = (replaceDefined macros ts).map significant := by
  induction ts using replaceDefined.induct macros with
  | case1 =>
    rw [replaceDefined]
    exact replaceDefined.eq_1 macros
  | case2 t ts hdefined cause hname =>
    have hs := significant_of_identifier hdefined.1
    have hrest := definedName_significant (List.forall_mem_cons.1 hlines).2
    rw [hname] at hrest
    rw [significant_cons_of_pos hs, replaceDefined, if_pos hdefined, hrest, replaceDefined,
      if_pos hdefined, hname]
    rfl
  | case3 t ts hdefined name rest hname ih =>
    have hs := significant_of_identifier hdefined.1
    obtain ⟨-, hlines⟩ := List.forall_mem_cons.1 hlines
    have hrest := definedName_significant hlines
    rw [hname] at hrest
    have ih := ih fun t ht => hlines t ((suffix_definedName hname).subset ht)
    rw [significant_cons_of_pos hs, replaceDefined, if_pos hdefined, hrest, replaceDefined,
      if_pos hdefined, hname]
    dsimp only [Except.map]
    rw [ih]
    cases replaceDefined macros rest <;> rfl
  | case4 t ts hdefined ih =>
    have ih := ih (List.forall_mem_cons.1 hlines).2
    cases hs : t.isSignificant with
    | true =>
      rw [significant_cons_of_pos hs, replaceDefined, if_neg hdefined, ih, replaceDefined,
        if_neg hdefined]
      cases replaceDefined macros ts with
      | error => rfl
      | ok us => exact congrArg Except.ok (significant_cons_of_pos hs us).symm
    | false =>
      rw [significant_cons_of_neg hs, ih, replaceDefined, if_neg hdefined]
      cases replaceDefined macros ts with
      | error => rfl
      | ok us => exact congrArg Except.ok (significant_cons_of_neg hs us).symm

/-! ## Conditions that write an expression -/

/-- Tokens spell what those among them spell, one by one, that do more than separate others. -/
theorem spelled_of_significant {ns : List Condition.Token}
    (h : List.Forall₂ (fun n t => (conditionSpelling TouchingOperands).token n [t]) ns
      (significant ts)) : Spelled (conditionSpelling TouchingOperands) ns ts := by
  induction ts generalizing ns with
  | nil =>
    cases h
    exact .nil
  | cons t ts ih =>
    cases hs : t.isSignificant with
    | true =>
      rw [significant_cons_of_pos hs] at h
      obtain ⟨n, ns, hn, hns, rfl⟩ := List.forall₂_cons_right_iff.1 h
      have hspelled : Spelled (conditionSpelling TouchingOperands) (n :: ns) ([t] ++ ts) :=
        .token hn (ih hns)
      exact hspelled
    | false =>
      rw [significant_cons_of_neg hs] at h
      exact .blank (isSeparator_of_not_significant hs) (ih h)

/-! ## Asking for a name -/

/-- A text that asks whether a name has a macro. -/
inductive Asks (name : String) : String → Prop
  | bare {gap : String} (blank : IsGap gap) (apart : gap ≠ "") :
      Asks name ("defined" ++ gap ++ name)
  | enclosed {before within after : String} (blankBefore : IsGap before)
      (blankWithin : IsGap within) (blankAfter : IsGap after) :
      Asks name ("defined" ++ before ++ "(" ++ within ++ name ++ after ++ ")")

/-- The lexemes that ask whether a name has a macro, blanks apart. -/
inductive Asking (name : String) : List Lexeme → Prop
  | bare : Asking name [⟨.identifier, "defined"⟩, ⟨.identifier, name⟩]
  | enclosed : Asking name
      [⟨.identifier, "defined"⟩, ⟨.punct, "("⟩, ⟨.identifier, name⟩, ⟨.punct, ")"⟩]

variable {ls : List Lexeme} {gap : String}

theorem isName_defined : IsName "defined" := ⟨by decide, rfl, nofun⟩

theorem rescans_gap (hgap : IsGap gap) (h : Rescans ls) : Rescans (⟨.whitespace, gap⟩ :: ls) := by
  refine Lexeme.rescans_spaces (fun c hc => ?_) h
  obtain rfl | rfl := Directive.eq_of_isGap (hgap c hc) <;> rfl

/-- A name comes back where blanks, and then a symbol or nothing, come after it. -/
theorem rescans_name (hname : IsName name) (hgap : IsGap gap)
    (hls : gap = "" → (chars ls).head?.any Lexeme.Form.isIdentifierPart = false) (h : Rescans ls) :
    Rescans (⟨.identifier, name⟩ :: ⟨.whitespace, gap⟩ :: ls) := by
  refine Lexeme.rescans_cons hname nofun nofun ?_ (rescans_gap hgap h)
  show (gap.toList ++ chars ls).head?.any Lexeme.Form.isIdentifierPart = false
  by_cases hempty : gap = ""
  · rw [hempty, String.toList_empty, List.nil_append, hls hempty]
  · exact Directive.head_gap hgap hempty rfl rfl

/-- A symbol that begins no comment and no number comes back. -/
theorem rescans_symbol {symbol : String} (hsymbol : symbol ∈ ["!", "(", ")"]) (h : Rescans ls) :
    Rescans (⟨.punct, symbol⟩ :: ls) := by
  simp only [List.mem_cons, List.not_mem_nil, or_false] at hsymbol
  obtain rfl | rfl | rfl := hsymbol
  all_goals
    refine Lexeme.rescans_cons ⟨by decide, rfl, fun _ => rfl⟩ nofun nofun ?_ h
    cases chars ls <;> rfl

/-- The lexemes that ask for a name come back from their text. -/
theorem Asks.exists_lexemes (h : Asks name text) (hname : IsName name) :
    ∃ ls, text.toList = chars ls ∧ Rescans ls ∧
      Asking name (ls.filter fun l => l.isSignificant) := by
  have nothing : Rescans [] := fun _ hc => Lexeme.Cursor.yields_end hc
  cases h with
  | @bare gap blank apart =>
    refine ⟨[⟨.identifier, "defined"⟩, ⟨.whitespace, gap⟩, ⟨.identifier, name⟩], by simp [chars],
      ?_, .bare⟩
    have hlast : Rescans [⟨.identifier, name⟩] :=
      Lexeme.rescans_cons hname (by simp) (by simp) rfl nothing
    exact rescans_name isName_defined blank (absurd · apart) hlast
  | @enclosed before within after blankBefore blankWithin blankAfter =>
    refine ⟨[⟨.identifier, "defined"⟩, ⟨.whitespace, before⟩, ⟨.punct, "("⟩, ⟨.whitespace, within⟩,
      ⟨.identifier, name⟩, ⟨.whitespace, after⟩, ⟨.punct, ")"⟩], by simp [chars], ?_, .enclosed⟩
    have hclosing : Rescans [⟨.punct, ")"⟩] := rescans_symbol (by decide) nothing
    have hinner := rescans_gap blankWithin (rescans_name hname blankAfter (fun _ => rfl) hclosing)
    exact rescans_name isName_defined blankBefore (fun _ => rfl) (rescans_symbol (by decide) hinner)

theorem Asks.isTrimmed (h : Asks name text) (hname : IsName name) : Directive.IsTrimmed text := by
  have hdefined := Directive.isTrimmed_of_isName isName_defined
  cases h with
  | bare blank apart =>
    exact hdefined.append (fun c hc => Directive.onLine_of_isGap (blank c hc))
      (Directive.isTrimmed_of_isName hname)
  | @enclosed before within after blankBefore blankWithin blankAfter =>
    have hclosing : Directive.IsTrimmed ")" := .singleton (c := ')') rfl (by decide)
    have hopening : ∀ c ∈ "(".toList, Directive.isOnLine c = true := List.forall_mem_singleton.2 rfl
    have hbetween : ∀ c ∈ (before ++ "(" ++ within ++ name ++ after).toList,
        Directive.isOnLine c = true := by
      simp only [String.toList_append, List.forall_mem_append]
      exact ⟨⟨⟨⟨fun c hc => Directive.onLine_of_isGap (blankBefore c hc), hopening⟩,
        fun c hc => Directive.onLine_of_isGap (blankWithin c hc)⟩,
        (Directive.isTrimmed_of_isName hname).onLine⟩,
        fun c hc => Directive.onLine_of_isGap (blankAfter c hc)⟩
    simpa only [String.append_assoc] using hdefined.append hbetween hclosing

theorem Asks.isTrimmed_not (h : Asks name text) (hname : IsName name) (hgap : IsGap gap) :
    Directive.IsTrimmed ("!" ++ gap ++ text) := by
  have hbang : Directive.IsTrimmed "!" := .singleton (c := '!') rfl (by decide)
  exact hbang.append (fun c hc => Directive.onLine_of_isGap (hgap c hc)) (h.isTrimmed hname)

/-- What a lexeme of a condition is as a token. -/
def conditionToken (origin : Origin) (l : Lexeme) : Token := ⟨l, origin, false, []⟩

/-- The tokens of a condition on one line, if its lexemes come back, are these, trivia apart. -/
theorem exists_conditionTokens (origin : Origin) (htext : text.toList = chars ls) (hls : Rescans ls)
    (hline : '\n' ∉ text.toList) : ∃ read, conditionTokens origin text = .ok read ∧
      (∀ t ∈ read, t.kind ≠ .newline) ∧
      significant read = (ls.filter fun l => l.isSignificant).map (conditionToken origin) := by
  obtain ⟨read, hread, hfilter⟩ := Lexeme.ofText_of_rescans hls htext
  refine ⟨read.map (conditionToken origin), ?_, fun t ht hk => ?_, ?_⟩
  · rw [conditionTokens, hread]
    rfl
  · obtain ⟨l, hl, rfl⟩ := List.mem_map.1 ht
    refine Lexeme.oneLine_of_ofText hread hline l hl ?_
    obtain h | h := Lexeme.text_of_newline (Lexeme.isWhole_of_ofText hread l hl) hk <;> simp [h]
  · rw [significant, List.filter_map, ← hfilter]
    rfl

/-- **A condition has the value of the expression that is left once `defined` has been replaced**,
if no name is left. -/
theorem conditionHolds_of_replaced {us : List Token} {ns : List Condition.Token}
    {e : Condition.Expr} {v : Int64} (htext : text.toList = chars ls) (hls : Rescans ls)
    (hline : '\n' ∉ text.toList) (hus : replaceDefined macros
      ((ls.filter fun l => l.isSignificant).map (conditionToken origin)) = .ok us)
    (hspelled : List.Forall₂ (fun n t => (conditionSpelling TouchingOperands).token n [t]) ns us)
    (hnames : ∀ t ∈ us, t.kind ≠ .identifier) (hns : Writes tokenSpelling 0 e ns)
    (hv : e.eval = .ok v) : conditionHolds macros origin text = .ok (v != 0) := by
  obtain ⟨read, hread, hlines, hsignificant⟩ := exists_conditionTokens origin htext hls hline
  rw [← hsignificant, replaceDefined_significant hlines] at hus
  obtain ⟨replaced, hreplaced, rfl⟩ := map_eq_ok.1 hus
  have hstill : ∀ t ∈ replaced, macros.applicable t = none := by
    refine fun t ht => Macro.applicable_eq_none fun hk => absurd hk (hnames t ?_)
    exact List.mem_filter.2 ⟨ht, significant_of_identifier hk⟩
  have hexpand : Macro.expand macros replaced = .ok replaced := by
    have hnothing := Macro.expand_append_of_none hstill []
    rw [List.append_nil, Macro.expand] at hnothing
    rw [hnothing]
    exact congrArg Except.ok (List.append_nil replaced)
  have hwrites := writes_expressionText (.of_tokens hns (spelled_of_significant hspelled))
  have hexpanded : Expanded macros origin text replaced :=
    ⟨read, replaced, hread, hreplaced, hexpand⟩
  refine hexpanded.conditionHolds_eq_ok_iff.2 ⟨v, ?_, rfl⟩
  rw [Condition.evaluate, Condition.parse_eq_ok_iff.2 hwrites]
  exact hv

/-! ## What is answered -/

/-- The number that takes the place of the question whether a name has a macro. -/
def answer (macros : Table) (origin : Origin) (name : String) : Token :=
  conditionToken origin ⟨.number, if macros.isDefined name then "1" else "0"⟩

/-- **`defined` and a name become one number**, whatever macros there are. -/
theorem replaceDefined_asking (h : Asking name ls) :
    replaceDefined macros (ls.map (conditionToken origin)) = .ok [answer macros origin name] := by
  obtain ⟨rest, hls, hname⟩ : ∃ rest, ls = ⟨.identifier, "defined"⟩ :: rest ∧
      definedName (rest.map (conditionToken origin)) = .ok (name, []) := by
    cases h with
    | bare => exact ⟨_, rfl, rfl⟩
    | enclosed => exact ⟨_, rfl, rfl⟩
  rw [hls, List.map_cons, replaceDefined, if_pos ⟨rfl, rfl⟩, hname]
  dsimp only
  rw [replaceDefined]
  rfl

/-- The number is one if the name has a macro and else zero. -/
theorem token_answer : (conditionSpelling TouchingOperands).token
    (.number (Condition.truth (macros.isDefined name))) [answer macros origin name] := by
  have hchars : tokenChars (answer macros origin name) =
      (if macros.isDefined name then "1" else "0").toList :=
    tokenChars_other (by simp [answer, conditionToken])
      (by simp [IsSeparator, Lexeme.isTrivia, Kind.isTrivia, answer, conditionToken])
  refine ⟨List.cons_ne_nil _ _, List.forall_mem_singleton.2 (.inr rfl), ?_⟩
  rw [List.flatMap_singleton, hchars]
  cases macros.isDefined name with
  | false => exact ⟨0, ['0'], [], rfl, .zero, by decide, rfl⟩
  | true =>
    have hone : Condition.IsNumeral 10 1 ['1'] := ⟨by simp, [1], by decide, rfl, rfl⟩
    exact ⟨1, ['1'], [], rfl, .decimal (by decide) hone, by decide, rfl⟩

/-- **The condition that a name has a macro holds if it has one.** -/
theorem Asks.conditionHolds (h : Asks name text) (hname : IsName name) :
    Preprocess.conditionHolds macros origin text = .ok (macros.isDefined name) := by
  obtain ⟨ls, htext, hls, hasking⟩ := h.exists_lexemes hname
  have hwrites : Writes tokenSpelling (0 + 6) _
      [.number (Condition.truth (macros.isDefined name))] := .number rfl
  rw [conditionHolds_of_replaced htext hls (h.isTrimmed hname).oneLine
    (replaceDefined_asking hasking) (.cons token_answer .nil) (by simp [answer, conditionToken])
    hwrites.loosen rfl]
  cases macros.isDefined name <;> rfl

/-- **The condition that a name has no macro holds if it has none.** -/
theorem Asks.conditionHolds_not (h : Asks name text) (hname : IsName name) (hgap : IsGap gap) :
    Preprocess.conditionHolds macros origin ("!" ++ gap ++ text) =
      .ok (!macros.isDefined name) := by
  obtain ⟨ls, htext, hls, hasking⟩ := h.exists_lexemes hname
  have hnot : Rescans (⟨.punct, "!"⟩ :: ⟨.whitespace, gap⟩ :: ls) :=
    rescans_symbol (by decide) (rescans_gap hgap hls)
  let bang : Token := conditionToken origin ⟨.punct, "!"⟩
  have hreplaced : replaceDefined macros
      (bang :: (ls.filter fun l => l.isSignificant).map (conditionToken origin)) =
        .ok [bang, answer macros origin name] := by
    rw [replaceDefined, if_neg (by rintro ⟨h, -⟩; cases h), replaceDefined_asking hasking]
    rfl
  have hbang : (conditionSpelling TouchingOperands).token (.symbol .bang) [bang] :=
    ⟨by simp [bang, conditionToken], List.flatMap_singleton _ _⟩
  have hwrites : Writes tokenSpelling (0 + 6) (.unary .not _)
      ([.symbol .bang] ++ [.number (Condition.truth (macros.isDefined name))]) :=
    .unary (by decide) rfl (.number rfl)
  rw [conditionHolds_of_replaced (by simp [chars, htext]) hnot (h.isTrimmed_not hname hgap).oneLine
    hreplaced (.cons hbang (.cons token_answer .nil)) (by simp [bang, answer, conditionToken])
    hwrites.loosen rfl]
  cases macros.isDefined name <;> rfl

/-! ## Lines that open a group -/

/-- The lines that open a group whose first branch counts if a name has a macro, or has none. -/
inductive OpensIf (name : String) : Bool → String → Prop
  | ifdef {line : String} (writes : LineOf "ifdef" name line) : OpensIf name true line
  | ifDefined {line text : String} (asks : Asks name text) (writes : LineOf "if" text line) :
      OpensIf name true line
  | ifndef {line : String} (writes : LineOf "ifndef" name line) : OpensIf name false line
  | ifNotDefined {line gap text : String} (blank : IsGap gap) (asks : Asks name text)
      (writes : LineOf "if" ("!" ++ gap ++ text) line) : OpensIf name false line

variable {env : Settings} {f : Frame} {s : State} {wanted : Bool}

/-- What a line that opens a group leads to, if its guard can be decided. -/
theorem handle_of_openGroup {guard : Guard} {rest : List Char} {holds : Bool}
    (parses : Directive.parse? line = some (.openGroup guard, rest))
    (decides : guardHolds s.macros origin guard = .ok holds) : handle env f origin line s =
      .ok (.proceed (s.openGroup (.opened s.isActive holds (s.position origin)))) := by
  have hword : Directive.wordOf line ∈ Directive.openingWords := by
    have hmem := Directive.wordOf_mem_spellings parses
    cases guard <;> obtain h := List.mem_singleton.1 hmem <;> rw [h] <;> decide
  have hgroup : Directive.wordOf line ∈ Directive.groupWords := by
    have sub : ∀ w ∈ Directive.openingWords, w ∈ Directive.groupWords := by decide
    exact sub _ hword
  cases hactive : s.isActive with
  | true =>
    rw [handle_of_parse? hactive parses, obey, decides]
  | false =>
    simp only [handle, hactive, true_and, hgroup, hword, not_true_eq_false, if_false, if_true]
    rfl

/-- **Whether a name has a macro is looked up in the table**, whichever way a line asks for it. -/
theorem handle_eq_of_opensIf {line' : String} (hname : IsName name) (h : OpensIf name wanted line)
    (h' : OpensIf name wanted line') :
    handle env f origin line s = handle env f origin line' s ∧
      handle env f origin line s = .ok (.proceed (s.openGroup
        (.opened s.isActive (s.macros.isDefined name == wanted) (s.position origin)))) := by
  have each {line : String} (h : OpensIf name wanted line) : handle env f origin line s =
      .ok (.proceed (s.openGroup
        (.opened s.isActive (s.macros.isDefined name == wanted) (s.position origin)))) := by
    cases h with
    | ifdef writes => exact handle_of_openGroup (writes.parse?_ifdef hname) (by simp [guardHolds])
    | ifndef writes => exact handle_of_openGroup (writes.parse?_ifndef hname) (by simp [guardHolds])
    | ifDefined asks writes =>
      refine handle_of_openGroup (writes.parse?_if (asks.isTrimmed hname)) ?_
      rw [guardHolds, asks.conditionHolds hname, beq_true]
    | ifNotDefined blank asks writes =>
      refine handle_of_openGroup (writes.parse?_if (asks.isTrimmed_not hname blank)) ?_
      rw [guardHolds, asks.conditionHolds_not hname blank, beq_false]
  exact ⟨(each h).trans (each h').symm, each h⟩

/-- The name of a macro with parameters. -/
theorem handle_eq_of_opensIf_apply :
    let s := State.initial (Table.empty.define ⟨"F", some ["x"], [⟨.identifier, "x"⟩]⟩)
    let f : Frame := ⟨0, "shader", "", 0, .ofString "", [], true⟩
    handle default f ⟨0, 0⟩ "#ifndef F" s = handle default f ⟨0, 0⟩ "#if!defined( F )" s ∧
      handle default f ⟨0, 0⟩ "#ifndef F" s =
        .ok (.proceed (s.openGroup (.opened true false (s.position ⟨0, 0⟩)))) := by
  intro s f
  have blank : IsGap " " := by decide
  have nothing : IsGap "" := by decide
  have writes : LineOf "ifndef" "F" ("#" ++ "ifndef" ++ " " ++ "F" ++ "") :=
    .intro blank nothing nofun
  have asks : Asks "F" ("defined" ++ "" ++ "(" ++ " " ++ "F" ++ " " ++ ")") :=
    .enclosed nothing blank blank
  have writesIf : LineOf "if" ("!" ++ "" ++ "defined( F )")
      ("#" ++ "if" ++ "" ++ ("!" ++ "" ++ "defined( F )") ++ "") :=
    .intro nothing nothing fun _ => rfl
  exact handle_eq_of_opensIf ⟨by decide, rfl, nofun⟩ (.ifndef writes)
    (.ifNotDefined nothing asks writesIf)

end ShaderPass.Preprocess
