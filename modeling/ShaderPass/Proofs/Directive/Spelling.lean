import ShaderPass.Proofs.Directive.Openings
import ShaderPass.Proofs.Source.Lines

/-!
# Proofs/Directive/Spelling — what a line says, its directive has

    #define F(a, b) a + b␣     the name F, the parameters a and b, the body a + b
    #pragma a␍b                passed through as `#pragma a`, and ␍b is left

What the readers take off a line spells the directive: all its parts, with nothing else than blanks
between them (`Spelled`).  What they leave means nothing.  It is left only after a free text, and
begins with a line break in the middle of the line: a carriage return on its own is white space of
the line, and a literal can go over several lines (`spelled_of_readLine`).
-/

namespace ShaderPass.Directive

open Lexeme

variable {text rest left : List Char} {d : Directive} {word args name body : String}

/-! ## The parts of a directive -/

/-- Whether what follows a word on its line is a free text with blanks around it. -/
structure Wraps (args text : String) : Prop where
  onLine : ∀ c ∈ args.toList, isOnLine c = true
  around : ∃ before after, args.toList = before ++ (text.toList ++ after) ∧
    ∀ c ∈ before ++ after, Text.isBlank c = true

/-- Whether what follows a word begins with a blank, or is nothing. -/
def Apart (args : String) : Prop := ∀ c ∈ args.toList.head?, isGap c = true

/-- Whether what follows a word begins with a blank, an opening parenthesis or an exclamation mark. -/
def BeginsCondition (args : String) : Prop :=
  ∃ c ∈ args.toList.head?, isGap c = true ∨ c = '(' ∨ c = '!'

/-- Whether what follows a word is a name with blanks around it. -/
inductive NameAlone (name : String) : String → Prop
  | intro {gap tail : String} (before : IsGap gap) (apart : gap ≠ "") (isName : IsName name)
      (after : IsGap tail) : NameAlone name (gap ++ name ++ tail)

/-- The parameters of a macro after the first, up to the closing parenthesis. -/
inductive MoreParams : List String → String → Prop
  | close {gap : String} (before : IsGap gap) : MoreParams [] (gap ++ ")")
  | comma {gap gap' p more : String} {ps : List String} (before : IsGap gap) (after : IsGap gap')
      (isName : IsName p) (rest : MoreParams ps more) :
      MoreParams (p :: ps) (gap ++ "," ++ gap' ++ p ++ more)

/-- The parameters of a macro up to the closing parenthesis. -/
inductive Params : List String → String → Prop
  | none {gap : String} (before : IsGap gap) : Params [] (gap ++ ")")
  | some {gap p more : String} {ps : List String} (before : IsGap gap) (isName : IsName p)
      (rest : MoreParams ps more) : Params (p :: ps) (gap ++ p ++ more)

/-- Whether a word and what follows it on the line are all that a directive has, and blanks. -/
inductive Spelled : Directive → String → String → Prop
  | object {gap name args body : String} (before : IsGap gap) (apart : gap ≠ "")
      (isName : IsName name) (ends : Apart args) (wraps : Wraps args body) :
      Spelled (.define name none body) "define" (gap ++ name ++ args)
  | function {gap name params args body : String} {ps : List String} (before : IsGap gap)
      (apart : gap ≠ "") (isName : IsName name) (list : Params ps params) (wraps : Wraps args body) :
      Spelled (.define name (some ps) body) "define" (gap ++ name ++ "(" ++ params ++ args)
  | undefine {name args : String} (alone : NameAlone name args) :
      Spelled (.undefine name) "undef" args
  | defined {name args : String} (alone : NameAlone name args) :
      Spelled (.openGroup (.defined name)) "ifdef" args
  | undefined {name args : String} (alone : NameAlone name args) :
      Spelled (.openGroup (.undefined name)) "ifndef" args
  | condition {args text : String} (begins : BeginsCondition args) (wraps : Wraps args text) :
      Spelled (.openGroup (.condition text)) "if" args
  | elseIf {args text : String} (begins : BeginsCondition args) (wraps : Wraps args text) :
      Spelled (.elseIf text) "elif" args
  | otherwise {args : String} (blank : IsGap args) : Spelled .otherwise "else" args
  | endGroup {args : String} (blank : IsGap args) : Spelled .endGroup "endif" args
  | quoted {gap path tail : String} (before : IsGap gap) (inside : '"' ∉ path.toList)
      (after : IsGap tail) : Spelled (.splice path) "include" (gap ++ "\"" ++ path ++ "\"" ++ tail)
  | angled {gap path tail : String} (before : IsGap gap) (inside : '>' ∉ path.toList)
      (after : IsGap tail) : Spelled (.splice path) "include" (gap ++ "<" ++ path ++ ">" ++ tail)
  | stop {args message : String} (apart : Apart args) (wraps : Wraps args message) :
      Spelled (.stop message) "error" args
  | once {gap tail : String} (before : IsGap gap) (apart : gap ≠ "") (after : IsGap tail) :
      Spelled .once "pragma" (gap ++ "once" ++ tail)
  | passed {word args text : String} {blanks : List Char} (mem : word ∈ passedWords)
      (apart : Apart args) (onLine : ∀ c ∈ args.toList, isOnLine c = true)
      (whole : ("#" ++ word ++ args).toList = text.toList ++ blanks)
      (blank : ∀ c ∈ blanks, Text.isBlank c = true) : Spelled (.passThrough text) word args
  | nothing {args : String} (blank : IsGap args) : Spelled .nothing "" args

/-- Whether the last part of a directive is a free text. -/
def EndsFree : Directive → Prop
  | .define _ _ _ | .openGroup (.condition _) | .elseIf _ | .stop _ | .passThrough _ => True
  | _ => False

/-! ## What the readers take -/

theorem exists_skipGap (text : List Char) :
    ∃ gap : String, IsGap gap ∧ text = gap.toList ++ skipGap text := by
  refine ⟨String.ofList (text.takeWhile isGap), fun c hc => ?_, ?_⟩
  · rw [String.toList_ofList] at hc
    exact List.mem_takeWhile_imp hc
  · rw [String.toList_ofList, skipGap, List.takeWhile_append_dropWhile]

theorem exists_of_afterGap? (h : afterGap? text = some rest) :
    ∃ gap : String, IsGap gap ∧ gap ≠ "" ∧ text = gap.toList ++ rest := by
  unfold afterGap? at h
  split at h
  next c cs =>
    split at h
    next hc =>
      obtain rfl := Option.some.inj h
      obtain ⟨gap, hgap, hcs⟩ := exists_skipGap cs
      refine ⟨String.ofList (c :: gap.toList), ?_, ?_, ?_⟩
      · rw [IsGap, String.toList_ofList]
        exact List.forall_mem_cons.2 ⟨hc, hgap⟩
      · rw [Ne, ← String.toList_eq_nil_iff, String.toList_ofList]
        exact List.cons_ne_nil _ _
      · rw [String.toList_ofList, List.cons_append, ← hcs]
    next => cases h
  next => cases h

theorem isGap_of_skipGap (h : skipGap text = []) : IsGap (String.ofList text) := by
  rw [IsGap, String.toList_ofList]
  exact List.dropWhile_eq_nil_iff.1 h

theorem isGap_of_atEnd? {u : Unit} (h : atEnd? text = some u) : IsGap (String.ofList text) :=
  isGap_of_skipGap (Option.ite_none_right_eq_some.1 h).1

/-- What is read as a name is one, and it is taken off the text. -/
theorem isName_of_name? (h : name? text = some (name, rest)) :
    IsName name ∧ text = name.toList ++ rest := by
  unfold name? at h
  split at h
  next => cases h
  next hn =>
    cases h
    cases text with
    | nil => exact absurd rfl hn
    | cons c cs =>
      have hc : Form.isIdentifierStart c = true := Decidable.byContradiction fun hc => hn (if_neg hc)
      have begins : Form.Begins .identifier ((c :: cs).take (Form.identifier (c :: cs)))
          ((c :: cs).take (Form.identifier (c :: cs)) ++ (c :: cs).drop (Form.identifier (c :: cs))) := by
        refine ⟨?_, ?_, nofun⟩
        · rw [Form.identifier, if_pos hc]
          exact List.cons_ne_nil _ _
        · rw [List.take_append_drop, List.length_take, Nat.min_eq_left (Form.identifier_le _),
            Form.form_identifier hc, Form.identifier, if_pos hc]
      refine ⟨?_, ?_⟩
      · rw [IsName, IsWhole, String.toList_ofList]
        exact ((Form.begins_append (by decide) (by decide)).1 begins).1
      · rw [String.toList_ofList, List.take_append_drop]

/-- A free text goes up to the first line break. -/
theorem exists_freeText (text : List Char) : ∃ args : String,
    text = args.toList ++ (freeText text).2 ∧ Wraps args (freeText text).1 := by
  refine ⟨String.ofList (text.takeWhile isOnLine), ?_, ?_, Text.exists_trim _⟩
  · rw [String.toList_ofList, freeText, List.takeWhile_append_dropWhile]
  · rw [String.toList_ofList]
    exact fun c hc => List.mem_takeWhile_imp hc

theorem offLine_freeText (text : List Char) : ∀ c ∈ (freeText text).2.head?, isOnLine c = false := by
  intro c hc
  have hhead := List.head?_dropWhile_not isOnLine text
  rw [show (text.dropWhile isOnLine).head? = some c from hc] at hhead
  simpa using hhead

/-- Blanks before a free text are blanks around it. -/
theorem Wraps.gap_append {gap : String} (h : Wraps args body) (hgap : IsGap gap) :
    Wraps (gap ++ args) body := by
  obtain ⟨onLine, before, after, hargs, blank⟩ := h
  rw [List.forall_mem_append] at blank
  refine ⟨?_, gap.toList ++ before, after, ?_, ?_⟩
  · rw [String.toList_append]
    exact List.forall_mem_append.2 ⟨fun c hc => onLine_of_isGap (hgap c hc), onLine⟩
  · rw [String.toList_append, hargs, List.append_assoc]
  · rw [List.append_assoc, List.forall_mem_append, List.forall_mem_append]
    exact ⟨fun c hc => isBlank_of_isGap (hgap c hc), blank⟩

/-- Blanks begin with a blank. -/
theorem exists_head_gap_append {gap : String} (hgap : IsGap gap) (hne : gap ≠ "") (args : String) :
    ∃ c, (gap ++ args).toList.head? = some c ∧ isGap c = true := by
  rcases hchars : gap.toList with _ | ⟨c, cs⟩
  · exact absurd (String.toList_eq_nil_iff.1 hchars) hne
  · refine ⟨c, ?_, hgap c (hchars ▸ List.mem_cons_self)⟩
    rw [String.toList_append, hchars]
    rfl

theorem apart_gap_append {gap : String} (hgap : IsGap gap) (hne : gap ≠ "") (args : String) :
    Apart (gap ++ args) := by
  obtain ⟨d, hd, isGap⟩ := exists_head_gap_append hgap hne args
  intro c hc
  rw [hd] at hc
  exact Option.some.inj hc ▸ isGap

/-- A free text that a blank comes before, or none. -/
theorem exists_of_afterGapOrEnd? (h : afterGapOrEnd? text = some rest) : ∃ args : String,
    text = args.toList ++ (freeText rest).2 ∧ Apart args ∧ Wraps args (freeText rest).1 := by
  unfold afterGapOrEnd? at h
  split at h
  next =>
    obtain rfl := Option.some.inj h
    exact ⟨"", rfl, nofun, ⟨List.forall_mem_nil _, [], [], rfl, List.forall_mem_nil _⟩⟩
  next =>
    obtain ⟨gap, hgap, hne, rfl⟩ := exists_of_afterGap? h
    obtain ⟨args, hargs, wraps⟩ := exists_freeText rest
    refine ⟨gap ++ args, ?_, apart_gap_append hgap hne args, wraps.gap_append hgap⟩
    rw [String.toList_append, List.append_assoc, ← hargs]

/-- What reading a directive off a text comes to: what is taken spells the directive, and what is left
begins with a line break after a free text. -/
structure Splits (word : String) (text : List Char) (d : Directive) (left : List Char) : Prop where
  spelled : ∃ args : String, text = args.toList ++ left ∧ Spelled d word args
  broken : ∀ c ∈ left.head?, isOnLine c = false ∧ d.EndsFree

/-- Nothing is left where all of a text is taken. -/
theorem splits_of_spelled (whole : text = args.toList) (spelled : Spelled d word args) :
    Splits word text d [] := ⟨⟨args, by rw [whole, List.append_nil], spelled⟩, nofun⟩

theorem splits_of_spelled_ofList (spelled : Spelled d word (String.ofList text)) :
    Splits word text d [] := splits_of_spelled String.toList_ofList.symm spelled

theorem exists_of_moreParams? {ps : List String} (h : moreParams? text = some (ps, rest)) :
    ∃ more : String, text = more.toList ++ rest ∧ MoreParams ps more := by
  fun_induction moreParams? text generalizing ps rest with
  | case1 text rest' hskip =>
    obtain ⟨rfl, rfl⟩ := Prod.mk.inj (Option.some.inj h)
    obtain ⟨gap, hgap, htext⟩ := exists_skipGap text
    exact ⟨gap ++ ")", by rw [htext, hskip]; simp, .close hgap⟩
  | case2 => cases h
  | case3 text after hskip p after' hname ih =>
    obtain ⟨⟨ps', rest'⟩, hmore, heq⟩ := Option.map_eq_some_iff.1 h
    obtain ⟨rfl, rfl⟩ := Prod.mk.inj heq
    obtain ⟨more, rfl, params⟩ := ih hmore
    obtain ⟨gap, hgap, htext⟩ := exists_skipGap text
    obtain ⟨gap', hgap', hafter⟩ := exists_skipGap after
    obtain ⟨isName, hskip'⟩ := isName_of_name? hname
    refine ⟨gap ++ "," ++ gap' ++ p ++ more, ?_, .comma hgap hgap' isName params⟩
    rw [htext, hskip, hafter, hskip']
    simp
  | case4 => cases h

theorem exists_of_params? {ps : List String} (h : params? text = some (ps, rest)) :
    ∃ params : String, text = params.toList ++ rest ∧ Params ps params := by
  obtain ⟨gap, hgap, htext⟩ := exists_skipGap text
  unfold params? at h
  split at h
  next hskip =>
    obtain ⟨rfl, rfl⟩ := Prod.mk.inj (Option.some.inj h)
    exact ⟨gap ++ ")", by rw [htext, hskip]; simp, .none hgap⟩
  next =>
    obtain ⟨⟨p, after⟩, hname, h⟩ := Option.bind_eq_some_iff.1 h
    obtain ⟨⟨ps', rest'⟩, hmore, heq⟩ := Option.bind_eq_some_iff.1 h
    obtain ⟨rfl, rfl⟩ := Prod.mk.inj (Option.some.inj heq)
    obtain ⟨isName, hskip⟩ := isName_of_name? hname
    obtain ⟨more, rfl, params⟩ := exists_of_moreParams? hmore
    exact ⟨gap ++ p ++ more, by rw [htext, hskip]; simp, .some hgap isName params⟩

theorem splits_define? (h : define? text = some (d, left)) : Splits "define" text d left := by
  simp only [define?, Option.bind_eq_bind, Option.bind_eq_some_iff, Option.pure_def] at h
  obtain ⟨after, hgap, ⟨name, tail⟩, hname, h⟩ := h
  obtain ⟨gap, isGap, apart, rfl⟩ := exists_of_afterGap? hgap
  obtain ⟨isName, rfl⟩ := isName_of_name? hname
  split at h
  next rest htail =>
    change tail = '(' :: rest at htail
    subst htail
    obtain ⟨⟨ps, rest'⟩, hparams, h⟩ := Option.bind_eq_some_iff.1 h
    cases h
    obtain ⟨params, rfl, list⟩ := exists_of_params? hparams
    obtain ⟨gap', hgap', hrest⟩ := exists_skipGap rest'
    obtain ⟨args, hargs, wraps⟩ := exists_freeText (skipGap rest')
    refine ⟨⟨_, ?_, .function isGap apart isName list (wraps.gap_append hgap')⟩,
      fun c hc => ⟨offLine_freeText _ c hc, trivial⟩⟩
    simp only [String.toList_append, List.append_assoc, ← hargs, ← hrest]
    rfl
  next =>
    obtain ⟨rest', hrest, h⟩ := Option.bind_eq_some_iff.1 h
    cases h
    obtain ⟨args, rfl, ends, wraps⟩ := exists_of_afterGapOrEnd? hrest
    refine ⟨⟨_, ?_, .object isGap apart isName ends wraps⟩,
      fun c hc => ⟨offLine_freeText _ c hc, trivial⟩⟩
    simp only [String.toList_append, List.append_assoc]

theorem nameAlone_of_nameOnly? (h : nameOnly? text = some name) :
    NameAlone name (String.ofList text) := by
  simp only [nameOnly?, Option.bind_eq_bind, Option.bind_eq_some_iff, Option.pure_def] at h
  obtain ⟨after, hgap, ⟨name, rest⟩, hname, _, hend, hsome⟩ := h
  obtain rfl := Option.some.inj hsome
  obtain ⟨gap, isGap, apart, rfl⟩ := exists_of_afterGap? hgap
  obtain ⟨isName, rfl⟩ := isName_of_name? hname
  have alone := NameAlone.intro isGap apart isName (isGap_of_atEnd? hend)
  rwa [String.ofList_append, String.ofList_append, String.ofList_toList, String.ofList_toList,
    ← String.append_assoc]

/-- The first character is taken, if it belongs to the line. -/
theorem mem_head_of_onLine {c : Char} {cs : List Char} (h : c :: cs = args.toList ++ left)
    (hc : isOnLine c = true) (hleft : ∀ c ∈ left.head?, isOnLine c = false) :
    c ∈ args.toList.head? := by
  rcases hargs : args.toList with _ | ⟨d, ds⟩
  · rw [hargs, List.nil_append] at h
    exact absurd (hleft c (h ▸ rfl)) (by simp [hc])
  · rw [hargs] at h
    rw [(List.cons.inj h).1]
    rfl

/-- A condition that begins with a parenthesis or an exclamation mark. -/
theorem exists_of_mark {c : Char} {cs : List Char} (hc : c = '(' ∨ c = '!')
    (h : freeText (c :: cs) = (body, left)) : ∃ args : String, c :: cs = args.toList ++ left ∧
      BeginsCondition args ∧ Wraps args body ∧ ∀ c ∈ left.head?, isOnLine c = false := by
  obtain ⟨args, hargs, wraps⟩ := exists_freeText (c :: cs)
  have offLine := offLine_freeText (c :: cs)
  rw [h] at hargs wraps offLine
  have onLine : isOnLine c = true := by rcases hc with rfl | rfl <;> rfl
  exact ⟨args, hargs, ⟨c, mem_head_of_onLine hargs onLine offLine, .inr hc⟩, wraps, offLine⟩

theorem exists_of_condition? (h : condition? text = some (body, left)) : ∃ args : String,
    text = args.toList ++ left ∧ BeginsCondition args ∧ Wraps args body ∧
      ∀ c ∈ left.head?, isOnLine c = false := by
  unfold condition? at h
  split at h
  next => exact exists_of_mark (.inl rfl) (Option.some.inj h)
  next => exact exists_of_mark (.inr rfl) (Option.some.inj h)
  next =>
    obtain ⟨rest, hgap, heq⟩ := Option.map_eq_some_iff.1 h
    obtain ⟨gap, isGap, hne, rfl⟩ := exists_of_afterGap? hgap
    obtain ⟨args, hargs, wraps⟩ := exists_freeText rest
    have offLine := offLine_freeText rest
    rw [heq] at hargs wraps offLine
    obtain ⟨c, hc, blank⟩ := exists_head_gap_append isGap hne args
    refine ⟨gap ++ args, ?_, ⟨c, hc, .inl blank⟩, wraps.gap_append isGap, offLine⟩
    rw [String.toList_append, List.append_assoc, ← hargs]

theorem exists_of_pathTo? {delimiter : Char} (h : pathTo? delimiter text = some (name, rest)) :
    text = name.toList ++ delimiter :: rest ∧ delimiter ∉ name.toList := by
  unfold pathTo? at h
  split at h
  next c cs hdrop =>
    cases h
    have hhead := List.head?_dropWhile_not (· != delimiter) text
    rw [hdrop] at hhead
    obtain rfl : c = delimiter := by simpa using hhead
    rw [String.toList_ofList, ← hdrop, List.takeWhile_append_dropWhile]
    refine ⟨rfl, fun hmem => ?_⟩
    simpa using List.mem_takeWhile_imp hmem
  next => cases h

/-- A path up to its delimiter, and blanks after that. -/
theorem exists_of_path {delimiter : Char} (h : ((pathTo? delimiter text).bind fun p =>
      (atEnd? p.2).bind fun _ => some (.splice p.1)) = some d) :
    ∃ path tail : String, d = .splice path ∧ text = path.toList ++ delimiter :: tail.toList ∧
      delimiter ∉ path.toList ∧ IsGap tail := by
  obtain ⟨⟨path, rest⟩, hpath, h⟩ := Option.bind_eq_some_iff.1 h
  obtain ⟨_, hend, hsome⟩ := Option.bind_eq_some_iff.1 h
  obtain ⟨htext, inside⟩ := exists_of_pathTo? hpath
  refine ⟨path, String.ofList rest, (Option.some.inj hsome).symm, ?_, inside, isGap_of_atEnd? hend⟩
  rw [String.toList_ofList, htext]

theorem splits_splice? (h : splice? text = some d) : Splits "include" text d [] := by
  obtain ⟨gap, isGap, htext⟩ := exists_skipGap text
  simp only [splice?, Option.bind_eq_bind, Option.pure_def] at h
  split at h
  next hskip =>
    obtain ⟨path, tail, rfl, rfl, inside, blank⟩ := exists_of_path h
    refine splits_of_spelled ?_ (.quoted isGap inside blank)
    rw [htext, hskip]
    simp
  next hskip =>
    obtain ⟨path, tail, rfl, rfl, inside, blank⟩ := exists_of_path h
    refine splits_of_spelled ?_ (.angled isGap inside blank)
    rw [htext, hskip]
    simp
  next =>
    obtain ⟨_, hpath, -⟩ := Option.bind_eq_some_iff.1 h
    cases hpath

theorem splits_once? (h : once? text = some d) : Splits "pragma" text d [] := by
  simp only [once?, Option.bind_eq_bind, Option.bind_eq_some_iff, Option.pure_def] at h
  obtain ⟨after, hgap, h⟩ := h
  obtain ⟨gap, isGap, apart, rfl⟩ := exists_of_afterGap? hgap
  split at h
  next rest =>
    obtain ⟨_, hend, hsome⟩ := Option.bind_eq_some_iff.1 h
    obtain rfl := Option.some.inj hsome
    refine splits_of_spelled ?_ (.once isGap apart (isGap_of_atEnd? hend))
    simp
  next => cases h

theorem splits_passThrough? (hword : word ∈ passedWords) (h : passThrough? word text = some (d, left)) :
    Splits word text d left := by
  unfold passThrough? at h
  split at h
  next hstart =>
    cases h
    obtain ⟨blanks, hwhole, blank⟩ :=
      Text.exists_trimEnd ("#" ++ word ++ String.ofList (text.takeWhile isOnLine))
    refine ⟨⟨String.ofList (text.takeWhile isOnLine), ?_, .passed hword ?_ ?_ hwhole blank⟩,
      fun c hc => ⟨offLine_freeText text c hc, trivial⟩⟩
    · rw [String.toList_ofList, List.takeWhile_append_dropWhile]
    · rcases hstart with rfl | hgap
      · exact nofun
      obtain ⟨rest, hrest⟩ := Option.isSome_iff_exists.1 hgap
      obtain ⟨gap, isGap, hne, rfl⟩ := exists_of_afterGap? hrest
      have onLine : ∀ c ∈ gap.toList, isOnLine c = true := fun c hc => onLine_of_isGap (isGap c hc)
      rw [List.takeWhile_append_of_pos onLine, String.ofList_append, String.ofList_toList]
      exact apart_gap_append isGap hne _
    · rw [String.toList_ofList]
      exact fun c hc => List.mem_takeWhile_imp hc
  next => cases h

/-! ## What each word takes -/

theorem splits_name {make : String → Directive}
    (spelled : ∀ {name args}, NameAlone name args → Spelled (make name) word args)
    (h : (nameOnly? text).map (fun name => (make name, [])) = some (d, left)) :
    Splits word text d left := by
  obtain ⟨name, hname, heq⟩ := Option.map_eq_some_iff.1 h
  cases heq
  exact splits_of_spelled_ofList (spelled (nameAlone_of_nameOnly? hname))

theorem splits_condition {make : String → Directive}
    (spelled : ∀ {args text}, BeginsCondition args → Wraps args text → Spelled (make text) word args)
    (h : (condition? text).map (fun (c, rest) => (make c, rest)) = some (d, left))
    (free : ∀ text, (make text).EndsFree) : Splits word text d left := by
  obtain ⟨⟨condition, rest⟩, hcondition, heq⟩ := Option.map_eq_some_iff.1 h
  cases heq
  obtain ⟨args, htext, begins, wraps, offLine⟩ := exists_of_condition? hcondition
  exact ⟨⟨args, htext, spelled begins wraps⟩, fun c hc => ⟨offLine c hc, free condition⟩⟩

theorem splits_bare {made : Directive} (spelled : ∀ {args}, IsGap args → Spelled made word args)
    (h : (atEnd? text).map (fun _ => (made, [])) = some (d, left)) : Splits word text d left := by
  obtain ⟨_, hend, heq⟩ := Option.map_eq_some_iff.1 h
  cases heq
  exact splits_of_spelled_ofList (spelled (isGap_of_atEnd? hend))

theorem splits_stop (h : (afterGapOrEnd? text).map (fun text =>
      let (message, rest) := freeText text
      (.stop message, rest)) = some (d, left)) : Splits "error" text d left := by
  obtain ⟨rest, hgap, heq⟩ := Option.map_eq_some_iff.1 h
  cases heq
  obtain ⟨args, htext, apart, wraps⟩ := exists_of_afterGapOrEnd? hgap
  exact ⟨⟨args, htext, .stop apart wraps⟩, fun c hc => ⟨offLine_freeText rest c hc, trivial⟩⟩

/-- **A directive is spelled by what is taken off its line.** -/
theorem splits_ofWord? (h : ofWord? word text = some (d, left)) : Splits word text d left := by
  unfold ofWord? at h
  split at h
  -- One case for each word, in the order in which the words are listed there.
  case h_1 => exact splits_define? h
  case h_2 => exact splits_name .undefine h
  case h_3 => exact splits_name .defined h
  case h_4 => exact splits_name .undefined h
  case h_5 => exact splits_condition .condition h fun _ => trivial
  case h_6 => exact splits_condition .elseIf h fun _ => trivial
  case h_7 => exact splits_bare .otherwise h
  case h_8 => exact splits_bare .endGroup h
  case h_9 =>
    obtain ⟨d', hsplice, heq⟩ := Option.map_eq_some_iff.1 h
    cases heq
    exact splits_splice? hsplice
  case h_10 => exact splits_stop h
  case h_11 =>
    rcases Option.or_eq_some_iff.1 h with h | ⟨-, h⟩
    · obtain ⟨d', honce, heq⟩ := Option.map_eq_some_iff.1 h
      cases heq
      exact splits_once? honce
    · exact splits_passThrough? (by decide) h
  case h_12 | h_13 | h_14 => exact splits_passThrough? (by decide) h
  case h_15 => cases h

/-! ## Where something is left -/

/-- Whether a lexeme holds a line break in the middle of its line: a carriage return in white space, or
any line break in a literal. -/
structure HoldsBreak (l : Lexeme) (x : Char) : Prop where
  mem : x ∈ l.text.toList
  offLine : isOnLine x = false
  kind : l.kind = .whitespace ∧ x = '\r' ∨ l.kind = .stringLiteral ∨ l.kind = .charLiteral

theorem eq_of_offLine {x : Char} (h : isOnLine x = false) : x = '\n' ∨ x = '\r' := by
  simpa [isOnLine, or_iff_not_imp_left] using h

variable {c c' after : Cursor} {l : Lexeme} {x : Char} {line : Line} {read : String} {ends : List Nat}

/-- What is read begins the text from there on. -/
theorem begins_of_reads (h : c.Reads l c') (noPunct : l.kind ≠ .punct) :
    Form.Begins l.kind l.text.toList (l.text.toList ++ c'.rest) :=
  ⟨mt String.toList_eq_nil_iff.1 h.nonempty, h.rest ▸ h.form, fun hk => absurd hk noPunct⟩

/-- Names and numbers are made of characters of the line. -/
theorem onLine_of_word (h : l.IsWhole) (hk : l.kind = .identifier ∨ l.kind = .number) :
    ∀ x ∈ l.text.toList, isOnLine x = true := by
  intro x hx
  rcases hchars : l.text.toList with _ | ⟨y, ys⟩
  · exact absurd hchars h.1
  have hpart : Form.isWordPart y = true := by
    refine eq_true_of_ne_false fun hpart => ?_
    obtain ⟨noName, noNumber⟩ := not_name_of_isWhole h hchars hpart
    exact hk.elim noName noNumber
  have hx := (wordPart_of_isWhole h hchars hpart).2 x hx
  refine eq_true_of_ne_false fun offLine => ?_
  rcases eq_of_offLine offLine with rfl | rfl <;> exact absurd hx (by decide)

/-- A line break begins a line end or white space. -/
theorem form_of_offLine (h : isOnLine x = false) (text : List Char) :
    (Form.form (x :: text)).1 ≠ .punct := by
  rcases eq_of_offLine h with rfl | rfl
  · rw [Form.form_newline]
    nofun
  · by_cases hn : Form.newline ('\r' :: text) = 0
    · rw [Form.form_space (by decide) hn]
      nofun
    · rw [Form.form_eq, if_pos hn]
      nofun

/-- White space of a line, and literals, are all that holds line breaks, comments apart. -/
theorem holdsBreak_of_reads (h : c.Reads l c') (hx : x ∈ l.text.toList) (offLine : isOnLine x = false)
    (noNewline : l.kind ≠ .newline) (noComment : ¬(l.kind = .lineComment ∨ l.kind = .blockComment)) :
    HoldsBreak l x := by
  refine ⟨hx, offLine, ?_⟩
  -- Punctuation and white space first: other lexemes are read from their own text alone, these need not be.
  by_cases punct : l.kind = .punct
  · obtain ⟨y, hy⟩ := List.length_eq_one_iff.1
      ((congrArg Prod.snd h.form).symm.trans (Form.punct_of_form ((congrArg Prod.fst h.form).trans punct)))
    rw [hy] at hx
    obtain rfl := List.mem_singleton.1 hx
    have form := h.form
    rw [h.rest, hy, List.singleton_append] at form
    exact absurd ((congrArg Prod.fst form).trans punct) (form_of_offLine offLine _)
  have begins := begins_of_reads h punct
  by_cases space : l.kind = .whitespace
  · rw [space] at begins
    have hspace := (Form.begins_whitespace begins).1 x hx
    refine .inl ⟨space, (eq_of_offLine offLine).resolve_left ?_⟩
    rintro rfl
    exact absurd hspace (by decide)
  have whole : l.IsWhole :=
    ((Form.begins_append space fun hk => noComment (.inl hk)).1 begins).1
  cases hk : l.kind with
  | newline => exact absurd hk noNewline
  | whitespace => exact absurd hk space
  | lineComment => exact absurd (.inl hk) noComment
  | blockComment => exact absurd (.inr hk) noComment
  | punct => exact absurd hk punct
  | identifier => exact absurd (onLine_of_word whole (.inl hk) x hx) (by simp [offLine])
  | number => exact absurd (onLine_of_word whole (.inr hk) x hx) (by simp [offLine])
  | stringLiteral => exact .inr (.inl rfl)
  | charLiteral => exact .inr (.inr rfl)

/-- **A line break in the text of a directive line** is one of white space or of a literal. -/
theorem exists_holdsBreak (h : ReadsRest c read ends after) (hx : x ∈ read.toList)
    (offLine : isOnLine x = false) : ∃ l, c.Meets l after ∧ HoldsBreak l x := by
  have noSpace : x ∉ (" " : String).toList := by
    rcases eq_of_offLine offLine with rfl | rfl <;> decide
  induction h with
  | atEnd | lineEnd => exact absurd hx List.not_mem_nil
  | continued next _ continues _ ih =>
    rw [String.toList_append] at hx
    obtain ⟨l, meets, holds⟩ := ih ((List.mem_append.1 hx).resolve_left noSpace)
    have meets := (Cursor.crosses_of_continuation continues).meets meets
    exact ⟨l, (Cursor.reads_of_next next).meets meets, holds⟩
  | @lexeme c c' after l read ends next noNewline _ rest ih =>
    have reads := Cursor.reads_of_next next
    rw [String.toList_append] at hx
    rcases List.mem_append.1 hx with hx | hx
    · unfold contribution at hx
      split at hx
      next => exact absurd hx noSpace
      next noComment =>
        have crosses := Cursor.crosses_of_readsRest rest
        exact ⟨l, ⟨[], c, c', _, .refl c, reads, crosses⟩,
          holdsBreak_of_reads reads hx offLine noNewline noComment⟩
    · obtain ⟨l, meets, holds⟩ := ih hx
      exact ⟨l, reads.meets meets, holds⟩

/-- **What a directive line says, the directive that it is read as has**, in its parts and with blanks
between them.  Something is left of the line only after a free text, and what is left begins with a line
break in the middle of the line. -/
theorem spelled_of_readLine (hline : readLine c = .ok (line, after))
    (h : parse? line.text = some (d, left)) :
    ∃ word args, line.text = "#" ++ word ++ args ++ String.ofList left ∧ Spelled d word args ∧
      (left = [] ∨ d.EndsFree ∧ ∃ x rest l, left = x :: rest ∧ c.Meets l after ∧ HoldsBreak l x) := by
  obtain ⟨read, reads, htext⟩ := readLine_eq_ok hline
  unfold parse? at h
  split at h
  next text hchars =>
    have hchars : line.text = "#" ++ String.ofList text :=
      String.toList_injective (by simp [hchars])
    split at h
    next hgap =>
      cases h
      exact ⟨"", String.ofList text, by simp [hchars], .nothing (isGap_of_skipGap hgap), .inl rfl⟩
    next =>
      obtain ⟨⟨word, tail⟩, hname, hword⟩ := Option.bind_eq_some_iff.1 h
      obtain ⟨⟨args, hargs, spelled⟩, broken⟩ := splits_ofWord? hword
      have whole : line.text = "#" ++ word ++ args ++ String.ofList left := by
        rw [hchars, (isName_of_name? hname).2, hargs]
        simp [String.ofList_append, String.append_assoc]
      refine ⟨word, args, whole, spelled, ?_⟩
      cases left with
      | nil => exact .inl rfl
      | cons x rest =>
        obtain ⟨offLine, endsFree⟩ := broken x rfl
        have hx : x ∈ line.text.toList := by simp [whole]
        -- The `#` has been put before what was read, and is no line break.
        rw [htext, String.toList_append] at hx
        have hx : x ∈ read.toList := by
          refine Text.mem_of_mem_trim ((List.mem_append.1 hx).resolve_left ?_)
          rcases eq_of_offLine offLine with rfl | rfl <;> decide
        obtain ⟨l, meets, holds⟩ := exists_holdsBreak reads hx offLine
        exact .inr ⟨endsFree, x, rest, l, rfl, meets, holds⟩
  next => cases h

/-- A definition with comments in and after its body. -/
theorem spelled_of_readLine_apply : ∃ hash c line after,
    (Cursor.ofString "#define A 1/**/2 // 3\n").next .strict = .ok (some (hash, c)) ∧
      readLine c = .ok (line, after) ∧ parse? line.text = some (.define "A" none "1 2", []) ∧
      ∃ word args, line.text = "#" ++ word ++ args ∧ Spelled (.define "A" none "1 2") word args := by
  have hline : readLine ⟨"define A 1/**/2 // 3\n".toList, ⟨1, 1, 2⟩⟩ =
      .ok (⟨"#define A 1 2", [21]⟩, ⟨[], ⟨22, 2, 1⟩⟩) := by decide +kernel
  have hparse : parse? "#define A 1 2" = some (.define "A" none "1 2", []) := by decide +kernel
  obtain ⟨word, args, whole, spelled, -⟩ := spelled_of_readLine hline hparse
  rw [String.ofList_nil, String.append_empty] at whole
  exact ⟨⟨.punct, "#"⟩, _, _, _, by decide +kernel, hline, hparse, word, args, whole, spelled⟩

/-- **A line can be dropped in part**: of a line that is passed through, what comes after a carriage
return is left. -/
theorem left_of_carriageReturn : ∃ hash c line after,
    (Cursor.ofString "#pragma a\rb\n").next .strict = .ok (some (hash, c)) ∧
      readLine c = .ok (line, after) ∧ line.text = "#pragma a\rb" ∧
      parse? line.text = some (.passThrough "#pragma a", ['\r', 'b']) := by
  have hline : readLine ⟨"pragma a\rb\n".toList, ⟨1, 1, 2⟩⟩ =
      .ok (⟨"#pragma a\rb", [11]⟩, ⟨[], ⟨12, 2, 1⟩⟩) := by decide +kernel
  exact ⟨⟨.punct, "#"⟩, _, _, _, by decide +kernel, hline, rfl, by decide +kernel⟩

end ShaderPass.Directive
