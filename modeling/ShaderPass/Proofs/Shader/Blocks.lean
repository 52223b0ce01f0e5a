import ShaderPass.Proofs.Shader.Braces
import ShaderPass.Proofs.Shader.Derivation

/-!
# Proofs/Shader/Blocks — passes, sub-shaders and files are read as the grammar derives them

    readTokens ─▸ readSubShaders ─▸ readPass ─▸ readPassItem ─▸ tags, states, stages
       File          SubShaders      PassBlock       Item

The readers of blocks report notices on the way; what they result in does not depend on them
(`Reported.result_bind`), and is related to the grammar as for tags and states, one reader after the
other.  Opaque text is `Balanced` tokens up to something that ends them, which is where the readers
that skip it stop.  Put together, a list of tokens is read as a file just when it derives as one, if
all that reads as a number counts for one (`readTokens_eq_ok_iff`).
-/

namespace ShaderPass.Shader

open Grammar

variable {α β : Type} {place : Place} {t : Token} {ts rest : List Token}

/-! ## Readings with notices -/

namespace Reported

@[simp] theorem result_bind (x : Reported α) (f : α → Reported β) :
    (x >>= f).result = x.result >>= fun a => (f a).result := by
  obtain ⟨e | a, notices⟩ := x <;> rfl

@[simp] theorem result_pure (a : α) : (pure a : Reported α).result = .ok a := rfl

@[simp] theorem result_lift (x : Except Error α) : (liftM x : Reported α).result = x := rfl

@[simp] theorem result_notify (notices : List Notice) : (notify notices).result = .ok () := rfl

/-- Notices do not change what comes of a reading. -/
theorem result_notify_bind (notices : List Notice) (f : Unit → Reported β) :
    (notify notices >>= f).result = (f ()).result := rfl

end Reported

/-! ## Names and directives -/

/-- A name that may be missing is read as it derives. -/
theorem name_optionalName (ts : List Token) :
    Name ts (optionalName ts).1 (optionalName ts).2.rest := by
  unfold optionalName
  split
  next t us =>
    split
    next hk => exact .present hk
    next => exact .absent
  next => exact .absent

/-- A name that derives before a brace is the one that is read. -/
theorem optionalName_eq {name : Option String} {o : Token} (h : Name ts name (o :: rest))
    (opening : o.isPunct '{' = true) :
    (optionalName ts).1 = name ∧ (optionalName ts).2.rest = o :: rest := by
  rcases h with _ | string
  · have hk : o.kind ≠ .string := fun h => by cases (Token.isPunct_iff.1 opening).symm.trans h
    rw [optionalName, if_neg hk]
    exact ⟨rfl, rfl⟩
  · rw [optionalName, if_pos string]
    exact ⟨rfl, rfl⟩

/-- The tokens of directives at the front are skipped. -/
theorem exists_skipDirectives (place : Place) (ts : List Token) : ∃ ds,
    (∀ d ∈ ds, d.kind = .directive) ∧ ts = ds ++ (skipDirectives place ts).2 := by
  induction ts with
  | nil => exact ⟨[], by simp, rfl⟩
  | cons t ts ih =>
    unfold skipDirectives
    split
    next hk =>
      obtain ⟨ds, hds, hts⟩ := ih
      exact ⟨t :: ds, List.forall_mem_cons.2 ⟨hk, hds⟩, congrArg _ hts⟩
    next => exact ⟨[], by simp, rfl⟩

theorem skipDirectives_cons (h : t.kind = .directive) :
    (skipDirectives place (t :: ts)).2 = (skipDirectives place ts).2 := by
  rw [skipDirectives, if_pos h]

theorem skipDirectives_of_ne (h : t.kind ≠ .directive) :
    (skipDirectives place (t :: ts)).2 = t :: ts := by
  rw [skipDirectives, if_neg h]

theorem skipDirectives_of_keyword? {k : Keyword} (key : t.keyword? = some k) :
    (skipDirectives place (t :: ts)).2 = t :: ts :=
  skipDirectives_of_ne fun h => by cases (Token.keyword?_eq_some_iff.1 key).symm.trans h

theorem skipDirectives_of_isPunct {c : Char} (h : t.isPunct c = true) :
    (skipDirectives place (t :: ts)).2 = t :: ts :=
  skipDirectives_of_ne fun hk => by cases (Token.isPunct_iff.1 h).symm.trans hk

/-- All directives that stand first are skipped. -/
theorem skipDirectives_append {ds : List Token} (h : ∀ d ∈ ds, d.kind = .directive) :
    (skipDirectives place (ds ++ ts)).2 = (skipDirectives place ts).2 := by
  induction ds with
  | nil => rfl
  | cons d ds ih =>
    obtain ⟨hd, hds⟩ := List.forall_mem_cons.1 h
    rw [List.cons_append, skipDirectives_cons hd, ih hds]

/-! ## Stages and shared text -/

/-- A stage that is read derives, from its body or from its entry point. -/
theorem stageForm_of_gives {kind : StageKind} {text : StageText}
    (h : Gives (readStage place kind ts) text rest) : StageForm .lenient ts text rest := by
  unfold readStage at h
  split at h
  next => exact absurd h not_gives_fail
  next t us =>
    split at h
    next hopen =>
      split at h
      next => exact absurd h not_gives_fail
      next stop after hclose =>
        obtain ⟨rfl, rfl⟩ := gives_ok.1 h
        obtain ⟨us, c, after, rfl, inside, hc, hr⟩ := exists_balanced_of_closingBrace hclose
        rw [closingBrace_closing_zero hc] at hr
        cases hr
        exact .body hopen inside hc
    next =>
      split at h
      next heq =>
        split at h
        next => exact absurd h not_gives_fail
        next name after =>
          split at h
          next hk =>
            obtain ⟨rfl, rfl⟩ := gives_ok.1 h
            exact .entry heq hk (separator_iff.2 rfl)
          next => exact absurd h not_gives_fail
      next => exact absurd h not_gives_fail

/-- The body of a stage goes up to the brace that closes it, whatever stands in it. -/
theorem gives_readStage_body {kind : StageKind} {o c : Token} {us : List Token}
    (opening : o.isPunct '{' = true) (inside : Balanced (fun _ => True) us)
    (closing : c.isPunct '}' = true) :
    Gives (readStage place kind (o :: (us ++ c :: rest))) (.inline ⟨o.span.stop, c.span.start⟩)
      rest := by
  have hclose : closingBrace 0 (us ++ c :: rest) = some (c.span.start, rest) :=
    inside.closingBrace_append.trans (closingBrace_closing_zero closing)
  simp only [readStage, opening, if_true]
  split
  next hnone => cases hnone.symm.trans hclose
  next stop after hsome =>
    cases hsome.symm.trans hclose
    exact gives_ok.2 ⟨rfl, rfl⟩

/-- An entry point is read with the semicolon that may follow it. -/
theorem gives_readStage_entry {kind : StageKind} {eq name : Token}
    (equals : eq.isPunct '=' = true) (identifier : name.kind = .identifier) :
    Gives (readStage place kind (eq :: name :: ts)) (.entry name.text name.span) (eat ';' ts) := by
  have hopen : eq.isPunct '{' = false := Token.isPunct_eq_false_of_ne equals (by decide)
  simp [readStage, hopen, equals, identifier, gives_ok]

/-- **Reading a stage is deriving it.** -/
theorem gives_readStage {kind : StageKind} {text : StageText} :
    Gives (readStage place kind ts) text rest ↔ StageForm .lenient ts text rest := by
  refine ⟨stageForm_of_gives, ?_⟩
  rintro (⟨opening, inside, closing⟩ | ⟨equals, identifier, separator⟩)
  · exact gives_readStage_body opening inside closing
  · exact separator_iff.1 separator ▸ gives_readStage_entry equals identifier

theorem endsShared_eq_false_of_balanced {us : List Token}
    (h : Balanced (fun t => endsShared t = false) (t :: us)) : endsShared t = false := by
  rcases h with _ | ⟨_, outside, _⟩ | ⟨opening, _, _, _⟩
  · exact outside
  · exact endsShared_of_opening opening

/-- Shared text that is read derives, if something follows it. -/
theorem item_of_readShared (closing : t.isPunct '}' = false) (key : t.keyword? = none)
    (nonempty : (readShared t ts).rest ≠ []) :
    Item .lenient (t :: ts) (readShared t ts).value (readShared t ts).rest := by
  have hends : endsShared t = false := by rw [endsShared, closing, key]; rfl
  have hsplit : splitShared 0 (t :: ts) = _ := splitShared_cons fun _ => hends
  rcases hs : splitShared (braceDepth 0 t) ts with ⟨us, _ | ⟨u, after⟩⟩
  · exact absurd (congrArg Prod.snd hs) nonempty
  · rw [hs] at hsplit
    obtain ⟨hts, run, ends⟩ := balanced_of_splitShared hsplit
    obtain rfl : ts = us ++ u :: after := (List.cons.inj hts).2
    simp only [readShared, hs]
    exact .shared key run ends

/-- Shared text that derives is read, up to what ends it. -/
theorem gives_readShared {u : Token} {us : List Token}
    (run : Balanced (fun t => endsShared t = false) (t :: us)) (ends : endsShared u = true) :
    Gives (.ok (readShared t (us ++ u :: rest)))
      (.shared (spanOf t us) (declaredFunctions 0 (t :: us))) (u :: rest) := by
  have hsplit : splitShared 0 (t :: us ++ u :: rest) = _ := run.splitShared_append fun _ _ h => h
  rw [splitShared_of_ends ends, List.cons_append,
    splitShared_cons fun _ => endsShared_eq_false_of_balanced run] at hsplit
  obtain ⟨hus, hrest⟩ := Prod.mk.inj hsplit
  have hus := (List.cons.inj hus).2.trans (List.append_nil us)
  simp only [gives_ok, readShared, hus, hrest, and_self]

/-! ## Passes -/

/-- What follows a keyword is read, and made an item. -/
theorem gives_afterHead {γ : Type} {x : Except Error (Parsed α ts)} {f : α → γ} {b : γ} :
    Gives (do let p ← x; return (p.map f).afterHead (t := t) : Reported _).result b rest ↔
      ∃ a, Gives x a rest ∧ f a = b := by
  rw [Reported.result_bind, Reported.result_lift]
  constructor
  · intro h
    obtain ⟨a, _, _, ha, h⟩ := gives_bind.1 h
    obtain ⟨rfl, rfl⟩ := gives_ok.1 h
    exact ⟨a, ha, rfl⟩
  · rintro ⟨a, ha, rfl⟩
    exact .bind ha fun _ => gives_ok.2 ⟨rfl, rfl⟩

/-- An item that its keyword begins derives, keyword by keyword. -/
theorem item_of_readKeywordItem {seen : List StageKind} {k : Keyword} {i : PassItem}
    (key : t.keyword? = some k) (h : Gives (readKeywordItem place seen k t ts).result i rest) :
    Item .lenient (t :: ts) i rest := by
  have states : ∀ block : StateBlock, k = block.keyword →
      Gives (do let p ← readStates place block ts; return (p.map .states).afterHead (t := t) :
        Reported _).result i rest → Item .lenient (t :: ts) i rest := by
    rintro block rfl h
    obtain ⟨es, hes, rfl⟩ := gives_afterHead.1 h
    exact .states key (gives_readStates.1 hes)
  have stage : ∀ kind : StageKind, k = kind.keyword →
      Gives (do let p ← readStage place kind ts; return (p.map (.stage kind)).afterHead (t := t) :
        Reported _).result i rest → Item .lenient (t :: ts) i rest := by
    rintro kind rfl h
    obtain ⟨text, htext, rfl⟩ := gives_afterHead.1 h
    exact .stage key (gives_readStage.1 htext)
  cases k with
  | tags =>
    obtain ⟨es, hes, rfl⟩ := gives_afterHead.1 h
    exact .tags key (gives_readTags.1 hes)
  | renderQueueType =>
    obtain ⟨e, he, rfl⟩ := gives_afterHead.1 h
    exact .queue key (gives_readQueueType.1 he)
  | blendState => exact states .blend rfl h
  | depthState => exact states .depth rfl h
  | stencilState => exact states .stencil rfl h
  | rasterState => exact states .raster rfl h
  | vertexShader => exact stage .vertex rfl h
  | fragmentShader => exact stage .fragment rfl h
  | shader | subShader | pass => exact absurd h not_gives_fail

theorem item_of_readPassItem {seen : List StageKind} {i : PassItem}
    (closing : t.isPunct '}' = false) (nonempty : rest ≠ [])
    (h : Gives (readPassItem place seen t ts).result i rest) :
    Item .lenient (t :: ts) i rest := by
  unfold readPassItem at h
  split at h
  next k key => exact item_of_readKeywordItem key h
  next key =>
    obtain ⟨rfl, rfl⟩ := gives_ok.1 h
    exact item_of_readShared closing key nonempty

theorem readPassItem_eq {seen : List StageKind} {k : Keyword} (key : t.keyword? = some k) :
    readPassItem place seen t ts = readKeywordItem place seen k t ts := by
  unfold readPassItem
  split
  next k' key' => rw [Option.some.inj (key'.symm.trans key)]
  next key' => cases key'.symm.trans key

/-- An item does not begin with the closing brace of its pass, and is read as it is. -/
theorem gives_readPassItem {us : List Token} {i : PassItem} (h : Item .lenient us i rest)
    (place : Place) (seen : List StageKind) : ∃ t ts, us = t :: ts ∧ t.isPunct '}' = false ∧
      Gives (readPassItem place seen t ts).result i rest := by
  rcases h with ⟨key, entries⟩ | ⟨key, entries⟩ | ⟨key, entry⟩ | ⟨key, given⟩ | ⟨key, run, ends⟩
  all_goals refine ⟨_, _, rfl, ?_⟩
  · refine ⟨Token.isPunct_eq_false_of_keyword? key _, ?_⟩
    rw [readPassItem_eq key]
    exact gives_afterHead.2 ⟨_, gives_readTags.2 entries, rfl⟩
  · rename_i block _
    refine ⟨Token.isPunct_eq_false_of_keyword? key _, ?_⟩
    rw [readPassItem_eq key]
    cases block <;> exact gives_afterHead.2 ⟨_, gives_readStates.2 entries, rfl⟩
  · refine ⟨Token.isPunct_eq_false_of_keyword? key _, ?_⟩
    rw [readPassItem_eq key]
    exact gives_afterHead.2 ⟨_, gives_readQueueType.2 entry, rfl⟩
  · rename_i kind _
    refine ⟨Token.isPunct_eq_false_of_keyword? key _, ?_⟩
    rw [readPassItem_eq key]
    cases kind <;> exact gives_afterHead.2 ⟨_, gives_readStage.2 given, rfl⟩
  · have hends := endsShared_eq_false_of_balanced run
    refine ⟨(Bool.or_eq_false_iff.1 hends).1, ?_⟩
    rw [readPassItem, key]
    exact gives_readShared run ends

/-- Items of a pass that are read derive: by the recursion of the reader. -/
theorem itemList_of_gives {seen : List StageKind} {r : List PassItem × Nat}
    (h : Gives (readPassItems place seen ts).result r rest) :
    ItemList .lenient ts r.1 r.2 rest := by
  fun_induction readPassItems place seen ts generalizing r rest with
  | case1 => exact absurd h not_gives_fail
  | case2 seen c us hc =>
    obtain ⟨rfl, rfl⟩ := gives_ok.1 h
    exact .close hc
  | case3 seen t us hc ih =>
    simp only [Reported.result_bind] at h
    obtain ⟨_, mid, _, hitem, h⟩ := gives_bind.1 h
    obtain ⟨_, _, _, hmore, h⟩ := gives_bind.1 h
    obtain ⟨rfl, rfl⟩ := gives_ok.1 h
    have nonempty : mid ≠ [] := by
      rintro rfl
      rw [readPassItems] at hmore
      exact not_gives_fail hmore
    exact .item (item_of_readPassItem (eq_false_of_ne_true hc) nonempty hitem) (ih _ hmore)

/-- Items of a pass that derive are read: on the derivation, an item at a time. -/
theorem gives_readPassItems {seen : List StageKind} {is : List PassItem} {stop : Nat}
    (h : ItemList .lenient ts is stop rest) :
    Gives (readPassItems place seen ts).result (is, stop) rest := by
  induction h generalizing seen with
  | close closing =>
    rw [readPassItems, if_pos closing]
    exact gives_ok.2 ⟨rfl, rfl⟩
  | item item more ih =>
    obtain ⟨t, us, rfl, hc, hitem⟩ := gives_readPassItem item place seen
    rw [readPassItems, if_neg (Bool.eq_false_iff.1 hc)]
    simp only [Reported.result_bind]
    exact .bind hitem fun _ => .bind ih fun _ => gives_ok.2 ⟨rfl, rfl⟩

/-- **Reading a pass is deriving it.** -/
theorem gives_readPass {p : Pass} (key : t.keyword? = some .pass) :
    Gives (readPass place t ts).result p rest ↔ PassBlock .lenient (t :: ts) p rest := by
  constructor
  · intro h
    simp only [readPass, Reported.result_bind, Reported.result_lift] at h
    obtain ⟨_, _, _, hbrace, h⟩ := gives_bind.1 h
    obtain ⟨o, hname, ho⟩ := gives_expect.1 hbrace
    obtain ⟨_, _, _, hbody, h⟩ := gives_bind.1 h
    obtain ⟨rfl, rfl⟩ := gives_ok.1 h
    exact .intro key (hname ▸ name_optionalName ts) ho (itemList_of_gives hbody)
  · rintro ⟨-, named, opening, items⟩
    obtain ⟨rfl, hname⟩ := optionalName_eq named opening
    have hbrace : Gives (expect place '{' .openPass (optionalName ts).2.rest) () _ :=
      gives_expect.2 ⟨_, hname, opening⟩
    simp only [readPass, Reported.result_bind, Reported.result_lift]
    exact .bind hbrace fun _ => .bind (gives_readPassItems items) fun _ => gives_ok.2 ⟨rfl, rfl⟩

/-! ## Sub-shaders -/

theorem keyword?_of_passBlock {p : Pass} (h : PassBlock .lenient ts p rest) :
    ∃ k us, ts = k :: us ∧ k.keyword? = some .pass := by
  obtain ⟨key, _, _, _⟩ := h
  exact ⟨_, _, rfl, key⟩

/-- An item of a sub-shader is a block of tags or a pass. -/
theorem gives_readSubShaderItem {i : SubShaderItem} :
    Gives (readSubShaderItem place t ts).result i rest ↔
      (t.keyword? = some .tags ∧ ∃ es, TagBlock .lenient ts es rest ∧ .tags es = i) ∨
        ∃ p, PassBlock .lenient (t :: ts) p rest ∧ .pass p = i := by
  constructor
  · intro h
    unfold readSubShaderItem at h
    split at h
    next key =>
      obtain ⟨es, hes, rfl⟩ := gives_afterHead.1 h
      exact .inl ⟨key, es, gives_readTags.1 hes, rfl⟩
    next key =>
      rw [Reported.result_bind] at h
      obtain ⟨p, _, _, hp, h⟩ := gives_bind.1 h
      obtain ⟨rfl, rfl⟩ := gives_ok.1 h
      exact .inr ⟨p, (gives_readPass key).1 hp, rfl⟩
    next => exact absurd h not_gives_fail
  · rintro (⟨key, es, hes, rfl⟩ | ⟨p, hp, rfl⟩)
    · rw [readSubShaderItem, key]
      exact gives_afterHead.2 ⟨es, gives_readTags.2 hes, rfl⟩
    · obtain ⟨_, _, ⟨⟩, key⟩ := keyword?_of_passBlock hp
      rw [readSubShaderItem, key]
      simp only [Reported.result_bind]
      exact .bind ((gives_readPass key).2 hp) fun _ => gives_ok.2 ⟨rfl, rfl⟩

/-- The items of a sub-shader end at a closing brace, or begin with one item. -/
theorem gives_readSubShaderItems_iff {r : List SubShaderItem × Nat} :
    Gives (readSubShaderItems place ts).result r rest ↔
      ∃ t us, (skipDirectives place ts).2 = t :: us ∧
        (t.isPunct '}' = true ∧ ([], t.span.stop) = r ∧ us = rest ∨
          t.isPunct '}' = false ∧ ∃ i mid more, Gives (readSubShaderItem place t us).result i mid ∧
            Gives (readSubShaderItems place mid).result more rest ∧ (i :: more.1, more.2) = r) := by
  rw [readSubShaderItems.eq_def, Reported.result_notify_bind]
  split
  next hskip =>
    refine iff_of_false not_gives_fail ?_
    rintro ⟨t, us, hts, -⟩
    cases hskip.symm.trans hts
  next t us hskip =>
    constructor
    · intro h
      refine ⟨t, us, hskip, ?_⟩
      split at h
      next hc =>
        obtain ⟨rfl, rfl⟩ := gives_ok.1 h
        exact .inl ⟨hc, rfl, rfl⟩
      next hc =>
        simp only [Reported.result_bind] at h
        obtain ⟨i, mid, _, hitem, h⟩ := gives_bind.1 h
        obtain ⟨more, _, _, hmore, h⟩ := gives_bind.1 h
        obtain ⟨rfl, rfl⟩ := gives_ok.1 h
        exact .inr ⟨eq_false_of_ne_true hc, i, mid, more, hitem, hmore, rfl⟩
    · rintro ⟨t', us', hts, h⟩
      obtain ⟨rfl, rfl⟩ := List.cons.inj (hskip.symm.trans hts)
      rcases h with ⟨hc, rfl, rfl⟩ | ⟨hc, i, mid, more, hitem, hmore, rfl⟩
      · rw [if_pos hc]
        exact gives_ok.2 ⟨rfl, rfl⟩
      · rw [if_neg (Bool.eq_false_iff.1 hc)]
        simp only [Reported.result_bind]
        exact .bind hitem fun _ => .bind hmore fun _ => gives_ok.2 ⟨rfl, rfl⟩

/-- Directives among the items of a sub-shader are skipped. -/
theorem subShaderItems_append {ds : List Token} {is : List SubShaderItem} {stop : Nat}
    (directives : ∀ d ∈ ds, d.kind = .directive) (h : SubShaderItems .lenient ts is stop rest) :
    SubShaderItems .lenient (ds ++ ts) is stop rest := by
  induction ds with
  | nil => exact h
  | cons d ds ih =>
    obtain ⟨hd, hds⟩ := List.forall_mem_cons.1 directives
    exact .directive hd (ih hds)

/-- Items of a sub-shader that are read derive: by the recursion of the reader. -/
theorem subShaderItems_of_gives {r : List SubShaderItem × Nat}
    (h : Gives (readSubShaderItems place ts).result r rest) :
    SubShaderItems .lenient ts r.1 r.2 rest := by
  induction ts using readSubShaderItems.induct place generalizing r rest with
  | case1 ts ih =>
    obtain ⟨ds, hds, hts⟩ := exists_skipDirectives place ts
    obtain ⟨t, us, hskip, h⟩ := gives_readSubShaderItems_iff.1 h
    rw [hskip] at hts
    rw [hts]
    refine subShaderItems_append hds ?_
    rcases h with ⟨hc, rfl, rfl⟩ | ⟨hc, i, mid, more, hitem, hmore, rfl⟩
    · exact .close hc
    · have hmid : mid.length < (t :: us).length := hitem.elim fun p hp => hp.2.2 ▸ p.shorter
      have hmore := ih t us hskip ⟨i, mid, hmid⟩ hmore
      obtain ⟨key, es, hes, rfl⟩ | ⟨p, hp, rfl⟩ := gives_readSubShaderItem.1 hitem
      · exact .tags key hes hmore
      · exact .pass hp hmore

/-- Items of a sub-shader that derive are read: on the derivation, an item at a time. -/
theorem gives_readSubShaderItems {is : List SubShaderItem} {stop : Nat}
    (h : SubShaderItems .lenient ts is stop rest) :
    Gives (readSubShaderItems place ts).result (is, stop) rest := by
  induction h with
  | close closing =>
    exact gives_readSubShaderItems_iff.2
      ⟨_, _, skipDirectives_of_isPunct closing, .inl ⟨closing, rfl, rfl⟩⟩
  | directive directive more ih =>
    have ih := gives_readSubShaderItems_iff.1 ih
    rw [← skipDirectives_cons directive] at ih
    exact gives_readSubShaderItems_iff.2 ih
  | tags key entries more ih =>
    refine gives_readSubShaderItems_iff.2 ⟨_, _, skipDirectives_of_keyword? key,
      .inr ⟨Token.isPunct_eq_false_of_keyword? key _, _, _, _, ?_, ih, rfl⟩⟩
    exact gives_readSubShaderItem.2 (.inl ⟨key, _, entries, rfl⟩)
  | pass pass more ih =>
    obtain ⟨k, us, rfl, key⟩ := keyword?_of_passBlock pass
    refine gives_readSubShaderItems_iff.2 ⟨_, _, skipDirectives_of_keyword? key,
      .inr ⟨Token.isPunct_eq_false_of_keyword? key _, _, _, _, ?_, ih, rfl⟩⟩
    exact gives_readSubShaderItem.2 (.inr ⟨_, pass, rfl⟩)

theorem keyword?_of_subShaderBlock {s : SubShader} (h : SubShaderBlock .lenient ts s rest) :
    ∃ k us, ts = k :: us ∧ k.keyword? = some .subShader := by
  obtain ⟨key, _, _, _, _, _⟩ := h
  exact ⟨_, _, rfl, key⟩

/-- **Reading a sub-shader is deriving it.** -/
theorem gives_readSubShader {s : SubShader} (key : t.keyword? = some .subShader) :
    Gives (readSubShader place t ts).result s rest ↔ SubShaderBlock .lenient (t :: ts) s rest := by
  constructor
  · intro h
    simp only [readSubShader, Reported.result_bind, Reported.result_lift] at h
    obtain ⟨_, _, _, hbrace, h⟩ := gives_bind.1 h
    obtain ⟨o, hname, ho⟩ := gives_expect.1 hbrace
    obtain ⟨_, _, _, hbody, h⟩ := gives_bind.1 h
    split at h
    next => exact absurd h not_gives_fail
    next hpasses =>
      obtain ⟨rfl, rfl⟩ := gives_ok.1 h
      exact .intro key (hname ▸ name_optionalName ts) ho (subShaderItems_of_gives hbody) rfl
        (fun h => hpasses (List.isEmpty_iff.2 h))
  · obtain ⟨name, is, span⟩ := s
    rintro ⟨-, named, opening, items, rfl, passes⟩
    obtain ⟨rfl, hname⟩ := optionalName_eq named opening
    have hbrace : Gives (expect place '{' .openSubShader (optionalName ts).2.rest) () _ :=
      gives_expect.2 ⟨_, hname, opening⟩
    simp only [readSubShader, Reported.result_bind, Reported.result_lift]
    refine .bind hbrace fun _ => .bind (gives_readSubShaderItems items) fun _ => ?_
    rw [if_neg fun h => passes (List.isEmpty_iff.1 h)]
    exact gives_ok.2 ⟨rfl, rfl⟩

/-! ## Files -/

/-- A result that goes on from a reading. -/
theorem bind_eq_ok_iff {x : Except Error (Parsed α ts)} {f : Parsed α ts → Except Error β} {b : β} :
    x >>= f = .ok b ↔ ∃ a mid h, Gives x a mid ∧ f ⟨a, mid, h⟩ = .ok b := by
  rw [bind_eq_ok]
  constructor
  · rintro ⟨p, hx, h⟩
    exact ⟨p.value, p.rest, p.shorter, ⟨p, hx, rfl, rfl⟩, h⟩
  · rintro ⟨_, _, _, ⟨p, hx, rfl, rfl⟩, h⟩
    exact ⟨p, hx, h⟩

/-- Where nothing follows the directives, sub-shaders end, if no brace has to. -/
theorem readSubShaders_of_nil {enclosed : Bool} (h : (skipDirectives place ts).2 = []) :
    (readSubShaders place enclosed ts).result =
      if enclosed then fail place [] .unterminatedShader else .ok ([], []) := by
  rw [readSubShaders.eq_def, Reported.result_notify_bind]
  split
  next =>
    cases enclosed with
    | false => rfl
    | true => rfl
  next hskip => cases h.symm.trans hskip

/-- Where something follows the directives, it ends the sub-shaders, begins the next one, or is
refused. -/
theorem readSubShaders_of_cons {enclosed : Bool} {us : List Token}
    (h : (skipDirectives place ts).2 = t :: us) :
    (readSubShaders place enclosed ts).result =
      if enclosed ∧ t.isPunct '}' then .ok ([], t :: us)
      else if t.keyword? = some .subShader then do
        let first ← (readSubShader place t us).result
        let r ← (readSubShaders place enclosed first.rest).result
        .ok (first.value :: r.1, r.2)
      else fail place (t :: us) (.notSubShader t.text) := by
  rw [readSubShaders.eq_def, Reported.result_notify_bind]
  split
  next hskip => cases h.symm.trans hskip
  next t' us' hskip =>
    obtain ⟨rfl, rfl⟩ := List.cons.inj (h.symm.trans hskip)
    rw [apply_ite Reported.result, apply_ite Reported.result, Reported.result_bind]
    simp only [Reported.result_bind]
    rfl

/-- Directives before a sub-shader are skipped. -/
theorem subShaders_append {ds : List Token} {ss : List SubShader}
    (directives : ∀ d ∈ ds, d.kind = .directive) (h : SubShaders .lenient ts ss rest) :
    SubShaders .lenient (ds ++ ts) ss rest := by
  induction ds with
  | nil => exact h
  | cons d ds ih =>
    obtain ⟨hd, hds⟩ := List.forall_mem_cons.1 directives
    exact .directive hd (ih hds)

/-- What ends the sub-shaders of a file: the closing brace of the block around them, or the end. -/
def EndsFile (enclosed : Bool) (ts : List Token) : Prop :=
  if enclosed then ∃ c us, ts = c :: us ∧ c.isPunct '}' = true else ts = []

/-- Sub-shaders that are read derive, up to what can end them: by the recursion of the reader. -/
theorem subShaders_of_readSubShaders {enclosed : Bool} {ss : List SubShader}
    (h : (readSubShaders place enclosed ts).result = .ok (ss, rest)) :
    SubShaders .lenient ts ss rest ∧ EndsFile enclosed rest := by
  induction ts using readSubShaders.induct place generalizing ss rest with
  | case1 ts ih =>
    obtain ⟨ds, hds, hts⟩ := exists_skipDirectives place ts
    rcases hskip : (skipDirectives place ts).2 with _ | ⟨t, us⟩
    · rw [readSubShaders_of_nil hskip] at h
      rw [hts, hskip]
      cases enclosed with
      | false =>
        cases h
        exact ⟨subShaders_append hds .nil, rfl⟩
      | true => cases h
    · rw [readSubShaders_of_cons hskip] at h
      rw [hts, hskip]
      split at h
      next hc =>
        cases h
        exact ⟨subShaders_append hds .nil, by rw [EndsFile, if_pos hc.1]; exact ⟨t, us, rfl, hc.2⟩⟩
      next =>
        split at h
        next key =>
          obtain ⟨s, mid, hmid, hs, h⟩ := bind_eq_ok_iff.1 h
          rcases hmore : (readSubShaders place enclosed mid).result with e | ⟨more, after⟩
          · rw [hmore] at h
            cases h
          · rw [hmore] at h
            cases h
            obtain ⟨more, ends⟩ := ih t us hskip ⟨s, mid, hmid⟩ hmore
            exact ⟨subShaders_append hds (.subShader ((gives_readSubShader key).1 hs) more), ends⟩
        next => cases h

theorem readSubShaders_cons {enclosed : Bool} {d : Token} (directive : d.kind = .directive) :
    (readSubShaders place enclosed (d :: ts)).result = (readSubShaders place enclosed ts).result := by
  have hcons : (skipDirectives place (d :: ts)).2 = (skipDirectives place ts).2 :=
    skipDirectives_cons directive
  rcases hskip : (skipDirectives place ts).2 with _ | ⟨t, us⟩
  · rw [readSubShaders_of_nil hskip, readSubShaders_of_nil (hcons.trans hskip)]
  · rw [readSubShaders_of_cons hskip, readSubShaders_of_cons (hcons.trans hskip)]

/-- Sub-shaders that derive are read: on the derivation, one at a time. -/
theorem readSubShaders_eq_ok {enclosed : Bool} {ss : List SubShader}
    (h : SubShaders .lenient ts ss rest) (ends : EndsFile enclosed rest) :
    (readSubShaders place enclosed ts).result = .ok (ss, rest) := by
  induction h with
  | nil =>
    cases enclosed with
    | false =>
      obtain rfl : _ = [] := ends
      exact readSubShaders_of_nil rfl
    | true =>
      obtain ⟨c, us, rfl, hc⟩ := ends
      rw [readSubShaders_of_cons (skipDirectives_of_isPunct hc), if_pos ⟨rfl, hc⟩]
  | directive directive more ih => rw [readSubShaders_cons directive, ih ends]
  | subShader subShader more ih =>
    obtain ⟨k, us, rfl, key⟩ := keyword?_of_subShaderBlock subShader
    rw [readSubShaders_of_cons (skipDirectives_of_keyword? key),
      if_neg (fun h => by simp [Token.isPunct_eq_false_of_keyword? key] at h), if_pos key]
    obtain ⟨p, hp, rfl, rfl⟩ := (gives_readSubShader key).2 subShader
    rw [hp]
    change ((readSubShaders place enclosed p.rest).result >>= fun r => .ok (p.value :: r.1, r.2)) = _
    rw [ih ends]
    rfl

theorem skipDirectives_eq_nil_iff :
    (skipDirectives place ts).2 = [] ↔ ∀ d ∈ ts, d.kind = .directive := by
  constructor
  · intro h
    obtain ⟨ds, hds, hts⟩ := exists_skipDirectives place ts
    rw [h, List.append_nil] at hts
    exact hts ▸ hds
  · intro h
    have hskip : (skipDirectives place (ts ++ [])).2 = [] := skipDirectives_append h
    rwa [List.append_nil] at hskip

/-- A block of a shader: a name, an opening brace, sub-shaders, and a closing brace that only
directives follow. -/
theorem readShaderBlock_eq_ok_iff {tree : Tree} : (readShaderBlock place ts).result = .ok (tree, rest) ↔
    rest = [] ∧ ∃ name o us ss c ds, ts = name :: o :: us ∧ name.kind = .string ∧
      o.isPunct '{' = true ∧ SubShaders .lenient us ss (c :: ds) ∧ c.isPunct '}' = true ∧
      (∀ d ∈ ds, d.kind = .directive) ∧ tree = ⟨some name.unquoted, ss⟩ := by
  constructor
  · intro h
    unfold readShaderBlock at h
    split at h
    next => cases h
    next name us =>
      split at h
      next hk =>
        simp only [Reported.result_bind, Reported.result_lift, Reported.result_notify] at h
        obtain ⟨_, _, _, hbrace, h⟩ := bind_eq_ok_iff.1 h
        obtain ⟨o, rfl, ho⟩ := gives_expect.1 hbrace
        obtain ⟨⟨ss, stop⟩, hss, h⟩ := bind_eq_ok.1 h
        obtain ⟨_, ds, _, hclosing, h⟩ := bind_eq_ok_iff.1 h
        obtain ⟨c, rfl, hc⟩ := gives_expect.1 hclosing
        obtain ⟨_, -, h⟩ := bind_eq_ok.1 h
        split at h
        next hds =>
          cases h
          exact ⟨rfl, name, o, _, ss, c, ds, rfl, hk, ho, (subShaders_of_readSubShaders hss).1, hc,
            skipDirectives_eq_nil_iff.1 hds, rfl⟩
        next => cases h
      next => cases h
  · rintro ⟨rfl, name, o, us, ss, c, ds, rfl, hk, ho, hss, hc, hds, rfl⟩
    have hss : (readSubShaders place true us).result = .ok (ss, c :: ds) :=
      readSubShaders_eq_ok hss ⟨c, ds, rfl, hc⟩
    obtain ⟨p, hp, -, hrest⟩ : Gives (expect place '{' .afterShaderName (o :: us)) () us :=
      gives_expect_cons ho
    obtain ⟨q, hq, -, hdirs⟩ : Gives (expect place '}' .closeShader (c :: ds)) () ds :=
      gives_expect_cons hc
    simp only [readShaderBlock, hk, if_true, Reported.result_bind, Reported.result_lift,
      Reported.result_notify]
    refine bind_eq_ok.2 ⟨p, hp, bind_eq_ok.2 ⟨_, hrest ▸ hss, bind_eq_ok.2 ⟨q, hq, ?_⟩⟩⟩
    refine bind_eq_ok.2 ⟨(), rfl, ?_⟩
    rw [hdirs, skipDirectives_eq_nil_iff.2 hds]
    rfl

/-- A file that is read derives. -/
theorem file_of_readTokens {tree : Tree} (h : (readTokens place ts).result = .ok tree) :
    File .lenient ts tree := by
  rw [readTokens, Reported.result_bind] at h
  obtain ⟨⟨tree', after⟩, hfile, h⟩ := bind_eq_ok.1 h
  have nonempty : tree' = tree ∧ tree'.subShaders ≠ [] := by
    rw [apply_ite Reported.result] at h
    split at h
    next => cases h
    next hne =>
      cases h
      exact ⟨rfl, fun h => hne (List.isEmpty_iff.2 h)⟩
  obtain ⟨rfl, nonempty⟩ := nonempty
  obtain ⟨ds, hds, hts⟩ := exists_skipDirectives place ts
  rw [readFile, Reported.result_notify_bind] at hfile
  split at hfile
  next t us hskip =>
    rw [hts, hskip]
    rw [apply_ite Reported.result] at hfile
    split at hfile
    next key =>
      obtain ⟨-, name, o, us, ss, c, ds', rfl, hk, ho, hss, hc, hds', rfl⟩ :=
        readShaderBlock_eq_ok_iff.1 hfile
      exact .block hds key hk ho hss nonempty hc hds'
    next =>
      rw [Reported.result_bind] at hfile
      obtain ⟨⟨ss, rest⟩, hss, h⟩ := bind_eq_ok.1 hfile
      cases h
      obtain ⟨hss, rfl⟩ := subShaders_of_readSubShaders hss
      exact .plain (subShaders_append hds hss) nonempty
  next => cases hfile; exact absurd rfl nonempty

/-- A sub-shader does not begin with the keyword of a shader. -/
theorem keyword?_of_subShaders (place : Place) {ss : List SubShader} (h : SubShaders .lenient ts ss rest)
    (nonempty : ss ≠ []) :
    ∃ k us, (skipDirectives place ts).2 = k :: us ∧ k.keyword? = some .subShader := by
  induction h with
  | nil => exact absurd rfl nonempty
  | directive directive more ih => rw [skipDirectives_cons directive]; exact ih nonempty
  | subShader subShader more =>
    obtain ⟨k, us, rfl, key⟩ := keyword?_of_subShaderBlock subShader
    exact ⟨k, us, skipDirectives_of_keyword? key, key⟩

/-- A file that derives is read to its end. -/
theorem readFile_eq_ok {tree : Tree} (h : File .lenient ts tree) :
    (readFile place ts).result = .ok (tree, []) := by
  rw [readFile, Reported.result_notify_bind]
  rcases h with ⟨subShaders, nonempty⟩ |
    ⟨before, key, string, opening, subShaders, nonempty, closing, after⟩
  · obtain ⟨k, us, hskip, key⟩ := keyword?_of_subShaders place subShaders nonempty
    have hss : (readSubShaders place false ts).result = .ok (_, []) :=
      readSubShaders_eq_ok subShaders rfl
    rw [readSubShaders_of_cons hskip, ← readSubShaders_of_cons (skipDirectives_of_keyword? key)] at hss
    rw [hskip]
    simp only [key, Option.some.injEq, reduceCtorEq, if_false, Reported.result_bind]
    exact bind_eq_ok.2 ⟨_, hss, rfl⟩
  · rw [skipDirectives_append before, skipDirectives_of_keyword? key]
    simp only [key, if_true]
    exact readShaderBlock_eq_ok_iff.2
      ⟨rfl, _, _, _, _, _, _, rfl, string, opening, subShaders, closing, after, rfl⟩

theorem readTokens_eq_ok {tree : Tree} (h : File .lenient ts tree) :
    (readTokens place ts).result = .ok tree := by
  rw [readTokens, Reported.result_bind]
  refine bind_eq_ok.2 ⟨_, readFile_eq_ok h, ?_⟩
  have nonempty : tree.subShaders ≠ [] := by
    rcases h with ⟨_, nonempty⟩ | ⟨_, _, _, _, _, nonempty, _, _⟩ <;> exact nonempty
  change Reported.result (if tree.subShaders.isEmpty then _ else _) = _
  rw [if_neg fun h => nonempty (List.isEmpty_iff.1 h)]
  rfl

/-- **A list of tokens is read as a file just when it is one.** -/
theorem readTokens_eq_ok_iff {tree : Tree} :
    (readTokens place ts).result = .ok tree ↔ File .lenient ts tree :=
  ⟨file_of_readTokens, readTokens_eq_ok⟩

end ShaderPass.Shader
