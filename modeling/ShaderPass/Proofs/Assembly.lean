import ShaderPass.Assembly
import ShaderPass.Proofs.Outcome
import ShaderPass.Proofs.Shader.Declarations

/-!
# Proofs/Assembly — which passes are put together, and from which texts

    shared ⏎ shared ⏎ own text, or void main() { entry(); }

A pass can be put together if it **provides** both its stages (`Shader.Pass.Provides`): each has a text
of its own, or an entry point that the shared text declares.  A shader is put together exactly if all
its passes can (`assemble_iff_of_parse`).  Its sources are then made of the very texts that stand where
the stretches say, and otherwise the first fault of the first pass that has one is reported.
-/

namespace ShaderPass

open Source (Span)
open Shader (Pass StageKind StageText Token tokenize parse)
open Text (StandsAt slice?)

/-! ## What is put together -/

/-- Whether a pass provides a stage: the stage has a text of its own, or an entry point that the
shared text declares. -/
def Shader.Pass.Provides (p : Pass) (ts : List Token) (kind : StageKind) : Prop :=
  ∃ stage, p.stage? kind = some stage ∧
    ∀ name span, stage = .entry name span → p.Declares ts name

namespace Assembly

/-- The failure of a stage that a pass does not provide. -/
inductive StageFault (ts : List Token) (position : Nat → Source.Position) (p : Pass)
    (kind : StageKind) : Error → Prop
  | missing (stage : p.stage? kind = none) : StageFault ts position p kind
      ⟨.noStage (passName p) kind, position p.span.start⟩
  | undeclared {name : String} {span : Span} (stage : p.stage? kind = some (.entry name span))
      (undeclared : ¬ p.Declares ts name) : StageFault ts position p kind
      ⟨.undeclaredEntry (passName p) kind name, position span.start⟩

/-- The failure of a pass: that of its vertex stage, or else that of its fragment stage. -/
inductive PassFault (ts : List Token) (position : Nat → Source.Position) (p : Pass) : Error → Prop
  | vertex {e : Error} (fault : StageFault ts position p .vertex e) : PassFault ts position p e
  | fragment {e : Error} (vertex : p.Provides ts .vertex)
      (fault : StageFault ts position p .fragment e) : PassFault ts position p e

/-- Whether a text is what a stage adds to the shared text. -/
def OwnText (text : String) : StageText → String → Prop
  | .inline span, own => StandsAt text span.start span.stop own
  | .entry name _, own => own = mainCalling name

/-- What the source of a stage is made of: the texts of the shared stretches, each on a line of its
own, and on the next line what the stage adds. -/
def IsSource (text : String) (p : Pass) (kind : StageKind) (source : StageSource) : Prop :=
  ∃ stage shared own, p.stage? kind = some stage ∧ source.span = stage.span ∧
    List.Forall₂ (fun s piece => StandsAt text s.start s.stop piece) p.shared shared ∧
    OwnText text stage own ∧ source.text =
      if shared = [] then own else String.intercalate "\n" shared ++ "\n" ++ own

/-- What a pass is put together to. -/
structure IsPass (text : String) (p : Pass) (c : CompiledPass) : Prop where
  name : c.name = passName p
  tags : c.tags = p.tags
  states : c.states = p.states
  vertex : IsSource text p .vertex c.vertex
  fragment : IsSource text p .fragment c.fragment

/-- What a sub-shader is put together to: its passes, in their order. -/
structure IsSubShader (text : String) (s : Shader.SubShader) (c : CompiledSubShader) : Prop where
  name : c.name = s.name
  tags : c.tags = s.tags
  passes : List.Forall₂ (IsPass text) s.passes c.passes

/-- What a file is put together to: its sub-shaders, in their order. -/
structure IsShader (text : String) (map : Source.Map) (tree : Shader.Tree) (c : CompiledShader) :
    Prop where
  name : c.name = tree.name
  subShaders : List.Forall₂ (IsSubShader text) tree.subShaders c.subShaders
  expanded : c.expanded = text
  sourceMap : c.sourceMap = map

variable {text name : String} {position : Nat → Source.Position} {map : Source.Map}
variable {tree : Shader.Tree} {s : Shader.SubShader} {p : Pass} {kind : StageKind} {ts : List Token}
variable {source : StageSource} {span : Span} {e : Error} {own : String} {pieces : List String}

/-! ## One stage -/

/-- What a stage adds to the shared text. -/
def ownText (text : String) : StageText → String
  | .inline span => slice text span
  | .entry name _ => mainCalling name

theorem stageSource_eq_ok_iff : stageSource text position p kind = .ok source ↔
    ∃ stage, p.stage? kind = some stage ∧ (∀ name span, stage = .entry name span → name ∈ p.functions) ∧
      source = ⟨joinShared (sharedText text p) (ownText text stage), stage.span⟩ := by
  rw [stageSource]
  rcases p.stage? kind with _ | ⟨span⟩ | ⟨name, span⟩
  · exact ⟨nofun, nofun⟩
  · refine ⟨fun h => ⟨_, rfl, nofun, (Except.ok.inj h).symm⟩, ?_⟩
    rintro ⟨_, ⟨⟩, -, rfl⟩
    rfl
  · dsimp only
    split
    next hname =>
      refine ⟨fun h => ⟨_, rfl, ?_, (Except.ok.inj h).symm⟩, ?_⟩
      · rintro _ _ ⟨⟩
        exact hname
      · rintro ⟨_, ⟨⟩, -, rfl⟩
        rfl
    next hname =>
      refine ⟨nofun, ?_⟩
      rintro ⟨_, ⟨⟩, hdeclared, -⟩
      exact absurd (hdeclared _ _ rfl) hname

theorem stageSource_eq_error_iff : stageSource text position p kind = .error e ↔
    p.stage? kind = none ∧ e = ⟨.noStage (passName p) kind, position p.span.start⟩ ∨
    ∃ name span, p.stage? kind = some (.entry name span) ∧ name ∉ p.functions ∧
      e = ⟨.undeclaredEntry (passName p) kind name, position span.start⟩ := by
  rw [stageSource]
  rcases p.stage? kind with _ | ⟨span⟩ | ⟨name, span⟩
  · simp [eq_comm]
  · simp
  · by_cases hname : name ∈ p.functions
    · simp [hname]
    · simp [hname, eq_comm]

/-- Lines that are not empty are joined to the text of a stage unless there are none. -/
theorem joinShared_intercalate (h : ∀ piece ∈ pieces, piece ≠ "") :
    joinShared (String.intercalate "\n" pieces) own =
      if pieces = [] then own else String.intercalate "\n" pieces ++ "\n" ++ own := by
  obtain _ | ⟨piece, _ | ⟨next, more⟩⟩ := pieces
  · rfl
  · rw [joinShared, String.intercalate_singleton, if_neg (h _ List.mem_cons_self),
      if_neg (List.cons_ne_nil _ _)]
  · rw [joinShared, if_neg, if_neg (List.cons_ne_nil _ _)]
    rw [String.intercalate_cons_cons]
    exact fun hnil => h _ List.mem_cons_self
      (String.append_eq_empty_iff.1 (String.append_eq_empty_iff.1 hnil).1).1

theorem standsAt_slice (h : (slice? text span.start span.stop).isSome = true) :
    StandsAt text span.start span.stop (slice text span) := by
  obtain ⟨piece, h⟩ := Option.isSome_iff_exists.1 h
  rw [slice, h]
  exact Text.slice?_eq_some_iff.1 h

/-! ## One pass -/

/-- Whether a pass is as reading leaves it: its stretches are there, those of shared text are not empty,
and its functions are those that its shared text declares. -/
structure Sound (text : String) (ts : List Token) (p : Pass) : Prop where
  there : ∀ s ∈ p.spans, (slice? text s.start s.stop).isSome = true
  nonempty : ∀ s ∈ p.shared, s.start < s.stop
  functions : ∀ name, name ∈ p.functions ↔ p.Declares ts name

theorem StageFault.not_provides (h : StageFault ts position p kind e) : ¬p.Provides ts kind := by
  rintro ⟨stage, hstage, hdeclared⟩
  obtain hnone | ⟨hentry, hundeclared⟩ := h
  · cases hnone.symm.trans hstage
  · cases hentry.symm.trans hstage
    exact hundeclared (hdeclared _ _ rfl)

theorem PassFault.not_provides (h : PassFault ts position p e) : ¬∀ kind, p.Provides ts kind := by
  obtain fault | ⟨-, fault⟩ := h
  · exact fun provides => fault.not_provides (provides _)
  · exact fun provides => fault.not_provides (provides _)

namespace Sound

theorem standsAt (sound : Sound text ts p) (h : span ∈ p.spans) :
    StandsAt text span.start span.stop (slice text span) := standsAt_slice (sound.there span h)

theorem stage_mem_spans {stage : StageText} (h : p.stage? kind = some stage) :
    stage.span ∈ p.spans :=
  List.mem_cons_of_mem _
    (List.mem_flatMap.2 ⟨_, Shader.Pass.mem_items_of_stage? h, List.mem_singleton_self _⟩)

theorem shared_mem_spans (h : span ∈ p.shared) : span ∈ p.spans :=
  List.mem_cons_of_mem _ (p.sublist_shared.subset h)

theorem ownText {stage : StageText} (sound : Sound text ts p) (h : p.stage? kind = some stage) :
    OwnText text stage (ownText text stage) := by
  obtain ⟨span⟩ | ⟨name, span⟩ := stage
  · exact sound.standsAt (stage_mem_spans h)
  · rfl

theorem slice_ne_empty (sound : Sound text ts p) (h : span ∈ p.shared) : slice text span ≠ "" := by
  obtain ⟨_, _, _, _, hstop⟩ := sound.standsAt (shared_mem_spans h)
  intro hempty
  have := sound.nonempty span h
  rw [hempty] at hstop
  exact absurd this (hstop ▸ Nat.lt_irrefl _)

/-- **The source of a stage is made of what stands in the stretches.** -/
theorem isSource (sound : Sound text ts p) (h : stageSource text position p kind = .ok source) :
    IsSource text p kind source := by
  obtain ⟨stage, hstage, -, rfl⟩ := stageSource_eq_ok_iff.1 h
  refine ⟨stage, p.shared.map (slice text), _, hstage, rfl, ?_, sound.ownText hstage, ?_⟩
  · rw [List.forall₂_map_right_iff, List.forall₂_same]
    exact fun s hs => sound.standsAt (shared_mem_spans hs)
  · rw [sharedText, joinShared_intercalate]
    intro piece hpiece
    obtain ⟨s, hs, rfl⟩ := List.mem_map.1 hpiece
    exact sound.slice_ne_empty hs

theorem provides (sound : Sound text ts p) (h : stageSource text position p kind = .ok source) :
    p.Provides ts kind := by
  obtain ⟨stage, hstage, hdeclared, -⟩ := stageSource_eq_ok_iff.1 h
  exact ⟨stage, hstage, fun name span hs => (sound.functions name).1 (hdeclared name span hs)⟩

theorem stageFault (sound : Sound text ts p) (h : stageSource text position p kind = .error e) :
    StageFault ts position p kind e := by
  obtain ⟨hstage, rfl⟩ | ⟨name, span, hstage, hname, rfl⟩ := stageSource_eq_error_iff.1 h
  · exact .missing hstage
  · exact .undeclared hstage fun hdeclared => hname ((sound.functions name).2 hdeclared)

/-- A pass that is put together provides both stages, and its sources are those of the stages. -/
theorem isPass {c : CompiledPass} (sound : Sound text ts p)
    (h : assemblePass text position p = .ok c) : (∀ kind, p.Provides ts kind) ∧ IsPass text p c := by
  obtain ⟨vertex, hvertex, h⟩ := bind_eq_ok.1 h
  obtain ⟨fragment, hfragment, h⟩ := bind_eq_ok.1 h
  obtain rfl := Except.ok.inj h
  refine ⟨?_, rfl, rfl, rfl, sound.isSource hvertex, sound.isSource hfragment⟩
  rintro (_ | _)
  · exact sound.provides hvertex
  · exact sound.provides hfragment

/-- A pass that is not put together has a fault. -/
theorem passFault (sound : Sound text ts p) (h : assemblePass text position p = .error e) :
    PassFault ts position p e := by
  obtain hvertex | ⟨vertex, hvertex, h⟩ := bind_eq_error.1 h
  · exact .vertex (sound.stageFault hvertex)
  · obtain hfragment | ⟨fragment, -, h⟩ := bind_eq_error.1 h
    · exact .fragment (sound.provides hvertex) (sound.stageFault hfragment)
    · cases h

end Sound

/-! ## All passes -/

/-- **A sub-shader that is put together is made of its passes.** -/
theorem isSubShader {c : CompiledSubShader} (sound : ∀ p ∈ s.passes, Sound text ts p)
    (h : assembleSubShader text position s = .ok c) :
    (∀ p ∈ s.passes, ∀ kind, p.Provides ts kind) ∧ IsSubShader text s c := by
  obtain ⟨passes, hpasses, h⟩ := bind_eq_ok.1 h
  obtain rfl := Except.ok.inj h
  have each := (List.forall₂_and_left _ _).2 ⟨sound, mapM_eq_ok_iff.1 hpasses⟩
  have made : List.Forall₂ (fun p c => (∀ kind, p.Provides ts kind) ∧ IsPass text p c) s.passes
      passes := each.imp fun _ _ h => h.1.isPass h.2
  obtain ⟨provides, made⟩ := (List.forall₂_and_left _ _).1 made
  exact ⟨provides, rfl, rfl, made⟩

/-- Passes of which one has a fault and those before it have none. -/
def FirstFault (ts : List Token) (position : Nat → Source.Position) (ps : List Pass) (e : Error) :
    Prop :=
  ∃ before p after, ps = before ++ p :: after ∧ (∀ q ∈ before, ∀ kind, q.Provides ts kind) ∧
    PassFault ts position p e

theorem FirstFault.not_provides {ps : List Pass} (h : FirstFault ts position ps e) :
    ¬∀ p ∈ ps, ∀ kind, p.Provides ts kind := by
  obtain ⟨before, p, after, rfl, -, fault⟩ := h
  exact fun provides =>
    fault.not_provides (provides p (List.mem_append_right _ List.mem_cons_self))

/-- **A sub-shader that is not put together fails as its first pass with a fault.** -/
theorem firstFault_subShader (sound : ∀ p ∈ s.passes, Sound text ts p)
    (h : assembleSubShader text position s = .error e) : FirstFault ts position s.passes e := by
  obtain h | ⟨_, -, h⟩ := bind_eq_error.1 h
  · obtain ⟨before, p, after, hpasses, earlier, h⟩ := exists_of_mapM_eq_error h
    rw [hpasses] at sound
    refine ⟨before, p, after, hpasses, fun q hq => ?_,
      (sound p (List.mem_append_right _ List.mem_cons_self)).passFault h⟩
    obtain ⟨c, hc⟩ := earlier q hq
    exact ((sound q (List.mem_append_left _ hq)).isPass hc).1
  · cases h

/-- **A file that is put together is made of its sub-shaders.** -/
theorem isShader {c : CompiledShader}
    (sound : ∀ s ∈ tree.subShaders, ∀ p ∈ s.passes, Sound text ts p)
    (h : assemble text map tree = .ok c) :
    (∀ s ∈ tree.subShaders, ∀ p ∈ s.passes, ∀ kind, p.Provides ts kind) ∧
      IsShader text map tree c := by
  obtain ⟨subShaders, hsubShaders, h⟩ := bind_eq_ok.1 h
  obtain rfl := Except.ok.inj h
  have each := (List.forall₂_and_left _ _).2 ⟨sound, mapM_eq_ok_iff.1 hsubShaders⟩
  have made : List.Forall₂ (fun s c => (∀ p ∈ s.passes, ∀ kind, p.Provides ts kind) ∧
      IsSubShader text s c) tree.subShaders subShaders := each.imp fun _ _ h => isSubShader h.1 h.2
  obtain ⟨provides, made⟩ := (List.forall₂_and_left _ _).1 made
  exact ⟨provides, rfl, made, rfl, rfl⟩

/-- **A file that is not put together fails as its first pass with a fault.** -/
theorem firstFault (sound : ∀ s ∈ tree.subShaders, ∀ p ∈ s.passes, Sound text ts p)
    (h : assemble text map tree = .error e) :
    FirstFault ts map.position (tree.subShaders.flatMap (·.passes)) e := by
  obtain h | ⟨_, -, h⟩ := bind_eq_error.1 h
  · obtain ⟨before, s, after, hsubShaders, earlier, h⟩ := exists_of_mapM_eq_error h
    rw [hsubShaders] at sound ⊢
    obtain ⟨before', p, after', hpasses, earlier', fault⟩ :=
      firstFault_subShader (sound s (List.mem_append_right _ List.mem_cons_self)) h
    refine ⟨before.flatMap (·.passes) ++ before', p, after' ++ after.flatMap (·.passes), ?_, ?_, fault⟩
    · simp [hpasses]
    · intro q hq
      obtain hq | hq := List.mem_append.1 hq
      · obtain ⟨s', hs', hq⟩ := List.mem_flatMap.1 hq
        obtain ⟨c, hc⟩ := earlier s' hs'
        exact (isSubShader (sound s' (List.mem_append_left _ hs')) hc).1 q hq
      · exact earlier' q hq
  · cases h

/-- The passes of an accepted text are as reading leaves them. -/
theorem sound_of_file {a b : Nat} (h : Shader.Grammar.File .lenient ts tree)
    (order : Token.InOrder a ts b) (hts : ∀ t ∈ ts, t.StandsIn text) :
    ∀ s ∈ tree.subShaders, ∀ p ∈ s.passes, Sound text ts p := by
  intro s hs p hp
  have layout := h.laidOut order hts
  obtain ⟨us, after, hsuffix, pass⟩ := h.exists_pass s hs p hp
  refine ⟨fun span hspan => ?_, ((layout.subShader s hs).pass p hp).nonempty, fun name =>
    pass.mem_functions hsuffix order fun t ht => (hts t ht).start_lt_stop⟩
  refine Text.slice?_isSome_iff.2 (layout.boundaries span (List.mem_flatMap.2 ⟨s, hs, ?_⟩))
  exact List.mem_cons_of_mem _ (List.mem_flatMap.2 ⟨p, hp, hspan⟩)

/-- **What is put together of an accepted text.**  All stretches of the text that are used are there.  A
shader is put together exactly if each pass provides both stages.  Then it holds the sub-shaders and
passes in their order, and the source of each stage is made of the texts that stand in the stretches.
Otherwise it fails as the first pass with a fault does. -/
theorem assemble_of_parse {map' : Source.Map} (h : (parse text map').result = .ok tree) :
    ∃ ts, tokenize text = .ok ts ∧
      (∀ span ∈ tree.spans, (slice? text span.start span.stop).isSome = true) ∧
      ((∃ c, assemble text map tree = .ok c) ↔
        ∀ s ∈ tree.subShaders, ∀ p ∈ s.passes, ∀ kind, p.Provides ts kind) ∧
      (∀ c, assemble text map tree = .ok c → IsShader text map tree c) ∧
      ∀ e, assemble text map tree = .error e →
        FirstFault ts map.position (tree.subShaders.flatMap (·.passes)) e := by
  obtain ⟨ts, htokens, hfile⟩ := Shader.file_of_parse h
  obtain ⟨hts, order⟩ := Shader.inOrder_tokenize htokens
  have sound := sound_of_file hfile order hts
  refine ⟨ts, htokens, fun span hspan => ?_, ⟨?_, fun provides => ?_⟩, fun c hc => (isShader sound hc).2,
    fun e he => firstFault sound he⟩
  · exact Text.slice?_isSome_iff.2 ((hfile.laidOut order hts).boundaries span hspan)
  · rintro ⟨c, hc⟩
    exact (isShader sound hc).1
  · rcases hassemble : assemble text map tree with e | c
    · refine absurd (fun p hp => ?_) (firstFault sound hassemble).not_provides
      obtain ⟨s, hs, hp⟩ := List.mem_flatMap.1 hp
      exact provides s hs p hp
    · exact ⟨c, rfl⟩

/-- A pass with one stage from a function of its shared text and one, which is empty, from a body. -/
theorem assemble_of_parse_apply : ∃ tree ts c,
    (parse "SubShader{Pass{int f(){}VertexShader=f;FragmentShader{}}}"
      default).result = .ok tree ∧
    (∀ s ∈ tree.subShaders, ∀ p ∈ s.passes, ∀ kind, p.Provides ts kind) ∧
    IsShader "SubShader{Pass{int f(){}VertexShader=f;FragmentShader{}}}" default
      tree c := by
  obtain ⟨c, hc⟩ : ∃ c, ((parse
      "SubShader{Pass{int f(){}VertexShader=f;FragmentShader{}}}"
      default).result.toOption.bind fun tree => (assemble
      "SubShader{Pass{int f(){}VertexShader=f;FragmentShader{}}}" default
      tree).toOption) = some c := Option.isSome_iff_exists.1 (by decide +kernel)
  obtain ⟨tree, hread, hc⟩ := Option.bind_eq_some_iff.1 hc
  have hread := toOption_eq_some_iff.1 hread
  have hc := toOption_eq_some_iff.1 hc
  obtain ⟨ts, -, -, provides, made, -⟩ := assemble_of_parse hread
  exact ⟨tree, ts, c, hread, provides.1 ⟨c, hc⟩, made c hc⟩

end Assembly

end ShaderPass
