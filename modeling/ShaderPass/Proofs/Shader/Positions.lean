import ShaderPass.Compiler

/-!
# Proofs/Shader/Positions — every failure of a reader is at an offset of the text

    offset of a token, or of the end ──position──▸ what a failure shows

The readers of blocks fail at the first token of what is left, or at the end where nothing is, and
never for a lexeme (`Place.Refuses`); assembly fails at the span of a pass or of the name of an entry
point.  So wherever the positions of offsets come from, each failure is at the position of one
(`Locates`), and it is one lemma for each reader to say so, put together as the readers are.
-/

namespace ShaderPass

open Source (Position)

/-- Whether a result that is a failure is one of some sort. -/
def FailsAs {C α : Type} (P : Failure C → Prop) (r : Except (Failure C) α) : Prop :=
  ∀ e, r = .error e → P e

/-- A result **locates** its failure by the positions of offsets: if it is one, it is at the position
of some offset. -/
abbrev Locates {C α : Type} (position : Nat → Position) (r : Except (Failure C) α) : Prop :=
  FailsAs (fun e => ∃ i, e.position = position i) r

namespace FailsAs

variable {C α β : Type} {P Q : Failure C → Prop}

theorem ok (a : α) : FailsAs P (.ok a) := fun _ h => by cases h

theorem pure (a : α) : FailsAs P (Pure.pure a) := ok a

theorem error {e : Failure C} (h : P e) : FailsAs P (.error e : Except (Failure C) α) :=
  fun _ he => Except.error.inj he ▸ h

/-- What goes on after a success fails as its parts do. -/
theorem bind {x : Except (Failure C) α} {f : α → Except (Failure C) β} (hx : FailsAs P x)
    (hf : ∀ a, FailsAs P (f a)) : FailsAs P (x >>= f) := by
  cases x with
  | error e => exact fun e' h => hx e' (congrArg _ (Except.error.inj h))
  | ok a => exact hf a

theorem map {x : Except (Failure C) α} (hx : FailsAs P x) (f : α → β) : FailsAs P (x.map f) := by
  cases x with
  | error e => exact fun e' h => hx e' (congrArg _ (Except.error.inj h))
  | ok a => exact ok (f a)

/-- Results in turn fail as each of them does. -/
theorem mapM {f : α → Except (Failure C) β} (hf : ∀ a, FailsAs P (f a)) (as : List α) :
    FailsAs P (as.mapM f) := by
  induction as with
  | nil => exact pure []
  | cons a as ih =>
    rw [List.mapM_cons]
    exact bind (hf a) fun b => bind ih fun bs => pure (b :: bs)

/-- A failure of one sort is one of any wider sort. -/
theorem mono {r : Except (Failure C) α} (h : FailsAs P r) (hPQ : ∀ e, P e → Q e) : FailsAs Q r :=
  fun e he => hPQ e (h e he)

end FailsAs

namespace Shader

variable {α β : Type} {place : Place} {ts us : List Token}

/-- A failure of a reader of blocks: it is at the position of an offset, and no lexeme is at fault. -/
structure Place.Refuses (place : Place) (e : Error) : Prop where
  stage : e.cause.stage = .parse
  located : ∃ i, e.position = place.position i

/-- A failure for what is left is at its first token, or at the end. -/
theorem refuses_fail (place : Place) (ts : List Token) {cause : Cause} (h : cause.stage = .parse) :
    FailsAs place.Refuses (fail place ts cause : Except Error α) := by
  cases ts with
  | nil => exact .error ⟨h, place.stop, rfl⟩
  | cons t ts => exact .error ⟨h, t.span.start, rfl⟩

/-- An expected mark that is missing is a failure for what stands in its place. -/
theorem refuses_expect (place : Place) (c : Char) (purpose : Purpose) (ts : List Token) :
    FailsAs place.Refuses (expect place c purpose ts) := by
  unfold expect
  split
  next =>
    split
    next => exact .ok _
    next => exact refuses_fail _ _ rfl
  next => exact refuses_fail _ _ rfl

/-! ## Tags and states -/

theorem refuses_readTagValue (place : Place) (name : String) (ts : List Token) :
    FailsAs place.Refuses (readTagValue place name ts) := by
  unfold readTagValue
  split
  next => exact refuses_fail _ _ rfl
  next =>
    split
    next => exact .ok _
    next => exact refuses_fail _ _ rfl

/-- Entries of tags fail as their marks and values do, or because no brace closes them. -/
theorem refuses_readTagEntries (place : Place) (ts : List Token) :
    FailsAs place.Refuses (readTagEntries place ts) := by
  rw [readTagEntries.eq_def]
  split
  next => exact refuses_fail _ _ rfl
  next t rest =>
    split
    next => exact .ok _
    next =>
      split
      next =>
        refine .bind (refuses_expect _ _ _ _) fun equals => ?_
        refine .bind (refuses_readTagValue _ _ _) fun value => ?_
        exact .bind (refuses_readTagEntries place _) fun more => .pure _
      next => exact refuses_fail _ _ rfl
termination_by ts.length
decreasing_by
  have h := length_eatEither_le ',' ';' value.rest
  have := value.shorter; have := equals.shorter
  simp_all only [List.length_cons]; omega

theorem refuses_readTags (place : Place) (ts : List Token) :
    FailsAs place.Refuses (readTags place ts) :=
  .bind (refuses_expect _ _ _ _) fun _ => .bind (refuses_readTagEntries _ _) fun _ => .pure _

/-- Components fail for a number that is missing, or for the mark after one. -/
theorem refuses_readComponents (place : Place) (ts : List Token) :
    FailsAs place.Refuses (readComponents place ts) := by
  rw [readComponents.eq_def]
  split
  next => exact refuses_fail _ _ rfl
  next t rest heat =>
    split
    next => exact refuses_fail _ _ rfl
    next =>
      split
      next => exact .ok _
      next =>
        have h : rest.length < ts.length := by
          have := length_eat_le '-' ts
          rw [heat, List.length_cons] at this
          exact this
        refine .bind (refuses_expect _ _ _ _) fun comma => ?_
        exact .bind (refuses_readComponents place comma.rest) fun more => .pure _
termination_by ts.length
decreasing_by
  have := comma.shorter; omega

/-- A color fails as its components do, or because there are not three or four of them. -/
theorem refuses_readColor (place : Place) (ts : List Token) :
    FailsAs place.Refuses (readColor place ts) := by
  refine .bind (refuses_readComponents _ _) fun components => ?_
  split
  next => exact .pure _
  next => exact .pure _
  next => exact refuses_fail _ _ rfl

theorem refuses_readMember (place : Place) (type : StateEnum) (ts : List Token) :
    FailsAs place.Refuses (readMember place type ts) := by
  unfold readMember
  split
  next =>
    split
    next => exact .ok _
    next => exact refuses_fail _ _ rfl
  next => exact refuses_fail _ _ rfl

/-- The member of a type fails for a type that is unknown, or as its own name does. -/
theorem refuses_readEnum (place : Place) (t : Token) (rest : List Token) :
    FailsAs place.Refuses (readEnum place t rest) := by
  unfold readEnum
  split
  next => exact refuses_fail _ _ rfl
  next => exact (refuses_readMember _ _ _).map _

/-- The value of a state fails for its first token, or as a sign, color or member does. -/
theorem refuses_readStateValue (place : Place) (ts : List Token) :
    FailsAs place.Refuses (readStateValue place ts) := by
  unfold readStateValue
  split
  next => exact refuses_fail _ _ rfl
  next t rest =>
    split
    next => exact .ok _
    next =>
      split
      next => exact refuses_fail _ _ rfl
      next =>
        split
        next => exact .ok _
        next => exact refuses_fail _ _ rfl
    next =>
      split
      next => exact .ok _
      next => exact refuses_fail _ _ rfl
    next => exact .ok _
    next =>
      split
      next => exact (refuses_readColor _ _).map _
      next =>
        split
        next => exact refuses_readEnum _ _ _
        next => exact .ok _
    next =>
      split
      next => exact refuses_readEnum _ _ _
      next => exact refuses_fail _ _ rfl
    next => exact refuses_fail _ _ rfl

/-- A target fails for an index that is none, or that its state does not take. -/
theorem refuses_readTarget (place : Place) (element : StateElement) (name : String)
    (ts : List Token) : FailsAs place.Refuses (readTarget place element name ts) := by
  unfold readTarget
  split
  next =>
    split
    next =>
      split
      next => exact refuses_fail _ _ rfl
      next =>
        split
        next => exact refuses_fail _ _ rfl
        next =>
          split
          next => exact (refuses_expect _ _ _ _).map _
          next => exact refuses_fail _ _ rfl
    next => exact .ok _
  next => exact .ok _

/-- Entries of states fail for a key that their block does not have, or as their parts do. -/
theorem refuses_readStateEntries (place : Place) (block : StateBlock) (ts : List Token) :
    FailsAs place.Refuses (readStateEntries place block ts) := by
  rw [readStateEntries.eq_def]
  split
  next => exact refuses_fail _ _ rfl
  next t rest =>
    split
    next => exact .ok _
    next =>
      split
      next => exact refuses_fail _ _ rfl
      next element _ =>
        refine .bind (refuses_readTarget _ _ _ _) ?_
        rintro ⟨target, afterTarget, ht⟩
        refine .bind (refuses_expect _ _ _ _) fun equals => ?_
        refine .bind (refuses_readStateValue _ _) fun value => ?_
        exact .bind (refuses_readStateEntries place block _) fun more => .pure _
termination_by ts.length
decreasing_by
  have h := length_eatEither_le ';' ',' value.rest
  have := value.shorter; have := equals.shorter
  simp_all only [List.length_cons]; omega

theorem refuses_readStates (place : Place) (block : StateBlock) (ts : List Token) :
    FailsAs place.Refuses (readStates place block ts) :=
  .bind (refuses_expect _ _ _ _) fun _ => .bind (refuses_readStateEntries _ _ _) fun _ => .pure _

theorem refuses_readQueueType (place : Place) (ts : List Token) :
    FailsAs place.Refuses (readQueueType place ts) :=
  .bind (refuses_expect _ _ _ _) fun _ => .bind (refuses_readStateValue _ _) fun _ => .pure _

/-! ## Stages and passes -/

/-- A stage fails for a body that is not closed, or for the name of an entry point. -/
theorem refuses_readStage (place : Place) (kind : StageKind) (ts : List Token) :
    FailsAs place.Refuses (readStage place kind ts) := by
  unfold readStage
  split
  next => exact refuses_fail _ _ rfl
  next =>
    split
    next =>
      split
      next => exact refuses_fail _ _ rfl
      next => exact .ok _
    next =>
      split
      next =>
        split
        next => exact refuses_fail _ _ rfl
        next =>
          split
          next => exact .ok _
          next => exact refuses_fail _ _ rfl
      next => exact refuses_fail _ _ rfl

/-- A reading with notices locates its failure as its result does. -/
theorem refuses_bind {x : Reported α} {f : α → Reported β} (hx : FailsAs place.Refuses x.result)
    (hf : ∀ a, FailsAs place.Refuses (f a).result) : FailsAs place.Refuses (x >>= f).result := by
  obtain ⟨result, notices⟩ := x
  cases result with
  | error e => exact fun e' h => hx e' (congrArg _ (Except.error.inj h))
  | ok a => exact hf a

/-- A reading without notices is one with none. -/
theorem refuses_lift {x : Except Error α} (hx : FailsAs place.Refuses x) :
    FailsAs place.Refuses (liftM x : Reported α).result := hx

theorem refuses_notify (notices : List Notice) :
    FailsAs place.Refuses (Reported.notify notices).result := .ok ()

theorem refuses_pure (a : α) : FailsAs place.Refuses (pure a : Reported α).result := .ok a

theorem refuses_ite {c : Prop} [Decidable c] {x y : Reported α}
    (hx : FailsAs place.Refuses x.result) (hy : FailsAs place.Refuses y.result) :
    FailsAs place.Refuses (if c then x else y).result := by
  split
  next => exact hx
  next => exact hy

/-- An item that a keyword begins fails as what the keyword stands for does. -/
theorem refuses_readKeywordItem (place : Place) (seen : List StageKind) (k : Keyword) (t : Token)
    (rest : List Token) : FailsAs place.Refuses (readKeywordItem place seen k t rest).result := by
  have stage : ∀ kind : StageKind, FailsAs place.Refuses (do
      Reported.notify (repeatNotice place seen kind (t :: rest))
      let p ← readStage place kind rest
      return (p.map (PassItem.stage kind)).afterHead (t := t) : Reported _).result := fun kind =>
    refuses_bind (refuses_notify _) fun _ =>
      refuses_bind (refuses_lift (refuses_readStage _ _ _)) fun _ => refuses_pure _
  have states : ∀ block : StateBlock, FailsAs place.Refuses (do
      let p ← readStates place block rest
      return (p.map PassItem.states).afterHead (t := t) : Reported _).result := fun block =>
    refuses_bind (refuses_lift (refuses_readStates _ _ _)) fun _ => refuses_pure _
  cases k with
  | tags => exact refuses_bind (refuses_lift (refuses_readTags _ _)) fun _ => refuses_pure _
  | blendState | depthState | stencilState | rasterState => exact states _
  | renderQueueType =>
    exact refuses_bind (refuses_lift (refuses_readQueueType _ _)) fun _ => refuses_pure _
  | vertexShader | fragmentShader => exact stage _
  | shader | subShader | pass => exact refuses_fail _ _ rfl

/-- An item of a pass fails for its keyword; shared text, which has none, does not fail. -/
theorem refuses_readPassItem (place : Place) (seen : List StageKind) (t : Token)
    (rest : List Token) : FailsAs place.Refuses (readPassItem place seen t rest).result := by
  unfold readPassItem
  split
  next => exact refuses_readKeywordItem _ _ _ _ _
  next => exact refuses_pure _

/-- Items of a pass fail as each of them does, or because no brace closes them. -/
theorem refuses_readPassItems (place : Place) (seen : List StageKind) (ts : List Token) :
    FailsAs place.Refuses (readPassItems place seen ts).result := by
  rw [readPassItems.eq_def]
  split
  next => exact refuses_fail _ _ rfl
  next t rest =>
    split
    next => exact refuses_pure _
    next =>
      refine refuses_bind (refuses_readPassItem _ _ _ _) fun item => ?_
      exact refuses_bind (refuses_readPassItems place _ item.rest) fun more => refuses_pure _
termination_by ts.length
decreasing_by
  have := item.shorter
  simp_all only [List.length_cons]

theorem refuses_readPass (place : Place) (t : Token) (rest : List Token) :
    FailsAs place.Refuses (readPass place t rest).result :=
  refuses_bind (refuses_lift (refuses_expect _ _ _ _)) fun _ =>
    refuses_bind (refuses_readPassItems _ _ _) fun _ => refuses_pure _

/-! ## Sub-shaders and files -/

/-- An item of a sub-shader fails as tags or a pass do, or because it is neither. -/
theorem refuses_readSubShaderItem (place : Place) (t : Token) (rest : List Token) :
    FailsAs place.Refuses (readSubShaderItem place t rest).result := by
  unfold readSubShaderItem
  split
  next => exact refuses_bind (refuses_lift (refuses_readTags _ _)) fun _ => refuses_pure _
  next => exact refuses_bind (refuses_readPass _ _ _) fun _ => refuses_pure _
  next => exact refuses_fail _ _ rfl

theorem refuses_readSubShaderItems (place : Place) (ts : List Token) :
    FailsAs place.Refuses (readSubShaderItems place ts).result := by
  rw [readSubShaderItems.eq_def]
  refine refuses_bind (refuses_notify _) fun _ => ?_
  split
  next => exact refuses_fail _ _ rfl
  next t rest heq =>
    have hs : (t :: rest).length ≤ ts.length := heq ▸ length_skipDirectives_le place ts
    split
    next => exact refuses_pure _
    next =>
      refine refuses_bind (refuses_readSubShaderItem _ _ _) fun item => ?_
      exact refuses_bind (refuses_readSubShaderItems place item.rest) fun more => refuses_pure _
termination_by ts.length
decreasing_by exact Nat.lt_of_lt_of_le item.shorter hs

/-- A sub-shader fails as its items do, or because none of them is a pass. -/
theorem refuses_readSubShader (place : Place) (t : Token) (rest : List Token) :
    FailsAs place.Refuses (readSubShader place t rest).result := by
  refine refuses_bind (refuses_lift (refuses_expect _ _ _ _)) fun brace => ?_
  refine refuses_bind (refuses_readSubShaderItems _ _) fun body => ?_
  exact refuses_ite (refuses_lift (refuses_fail _ _ rfl)) (refuses_pure _)

/-- Sub-shaders fail as each of them does, or for what follows the last one. -/
theorem refuses_readSubShaders (place : Place) (enclosed : Bool) (ts : List Token) :
    FailsAs place.Refuses (readSubShaders place enclosed ts).result := by
  rw [readSubShaders.eq_def]
  refine refuses_bind (refuses_notify _) fun _ => ?_
  split
  next =>
    split
    next => exact refuses_fail _ _ rfl
    next => exact refuses_pure _
  next t rest heq =>
    have hs : (t :: rest).length ≤ ts.length := heq ▸ length_skipDirectives_le place ts
    split
    next => exact refuses_pure _
    next =>
      split
      next =>
        refine refuses_bind (refuses_readSubShader _ _ _) fun first => ?_
        exact refuses_bind (refuses_readSubShaders place enclosed first.rest) fun more =>
          refuses_pure _
      next => exact refuses_fail _ _ rfl
termination_by ts.length
decreasing_by exact Nat.lt_of_lt_of_le first.shorter hs

/-- A shader block fails for its name or its braces, or as its sub-shaders do. -/
theorem refuses_readShaderBlock (place : Place) (ts : List Token) :
    FailsAs place.Refuses (readShaderBlock place ts).result := by
  unfold readShaderBlock
  split
  next => exact refuses_fail _ _ rfl
  next =>
    split
    next =>
      refine refuses_bind (refuses_lift (refuses_expect _ _ _ _)) fun _ => ?_
      refine refuses_bind (refuses_readSubShaders _ _ _) fun _ => ?_
      refine refuses_bind (refuses_lift (refuses_expect _ _ _ _)) fun _ => ?_
      refine refuses_bind (refuses_notify _) fun _ => ?_
      split
      next => exact refuses_pure _
      next => exact refuses_fail _ _ rfl
    next => exact refuses_fail _ _ rfl

theorem refuses_readFile (place : Place) (ts : List Token) :
    FailsAs place.Refuses (readFile place ts).result := by
  refine refuses_bind (refuses_notify _) fun _ => ?_
  split
  next =>
    split
    next => exact refuses_readShaderBlock _ _
    next => exact refuses_bind (refuses_readSubShaders _ _ _) fun _ => refuses_pure _
  next => exact refuses_pure _

/-- **Tokens are refused for one of them, or for their end, and for nothing else.** -/
theorem refuses_readTokens (place : Place) (ts : List Token) :
    FailsAs place.Refuses (readTokens place ts).result := by
  refine refuses_bind (refuses_readFile _ _) fun ⟨tree, after⟩ => ?_
  exact refuses_ite (refuses_lift (refuses_fail _ _ rfl)) (refuses_pure _)

/-- **A text that cannot be read is refused at the position of one of its offsets.** -/
theorem locates_parse (text : String) (map : Source.Map) :
    Locates map.position (parse text map).result := by
  unfold parse
  simp only
  split
  next fault location _ => exact .error ⟨location.offset, rfl⟩
  next => exact (refuses_readTokens (Place.ofText text map) _).mono fun _ h => h.located

end Shader

/-! ## Assembly -/

namespace Assembly

open Shader (Pass StageKind)

/-- A stage that is missing fails at its pass, one with a wrong entry point at its own span. -/
theorem locates_stageSource (text : String) (position : Nat → Position) (p : Pass)
    (kind : StageKind) : Locates position (stageSource text position p kind) := by
  unfold stageSource
  split
  next => exact .error ⟨p.span.start, rfl⟩
  next => exact .ok _
  next span _ =>
    split
    next => exact .ok _
    next => exact .error ⟨span.start, rfl⟩

/-- **Passes that cannot be put together are refused at the position of an offset.** -/
theorem locates_assemble (text : String) (map : Source.Map) (tree : Shader.Tree) :
    Locates map.position (assemble text map tree) := by
  refine .bind (.mapM (fun s => ?_) _) fun _ => .pure _
  refine .bind (.mapM (fun p => ?_) _) fun _ => .pure _
  refine .bind (locates_stageSource _ _ _ _) fun _ => ?_
  exact .bind (locates_stageSource _ _ _ _) fun _ => .pure _

end Assembly

/-- **A text that is not compiled is refused at the position of one of its offsets.** -/
theorem exists_position_of_compileText {text : String} {map : Source.Map} {e : CompileError}
    (h : (compileText text map).1 = .error e) : ∃ i, e.position = map.position i := by
  rw [compileText] at h
  have located := Shader.locates_parse text map
  split at h
  next e' _ hparse =>
    rw [hparse] at located
    rw [← Except.error.inj h]
    exact located e' rfl
  next tree _ _ =>
    cases hassemble : Assembly.assemble text map tree with
    | ok shader => rw [hassemble] at h; cases h
    | error e' =>
      rw [hassemble] at h
      rw [← Except.error.inj h]
      exact Assembly.locates_assemble text map tree e' hassemble

end ShaderPass
