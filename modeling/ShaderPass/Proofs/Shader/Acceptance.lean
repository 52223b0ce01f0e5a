import Mathlib
import ShaderPass.Proofs.Shader.Unambiguous

/-!
# Proofs/Shader/Acceptance — a text is read just when its tokens derive

    text ──tokenize──▸ tokens ──File──▸ tree
      └────────────parse──────────────────▴

The readers follow the grammar in which an item takes all that can belong to it, and there a list of
tokens derives one tree at most (`File.unique`).  Where an item may end earlier a list can derive
several trees, and one that is refused can derive some (`exists_file_free_of_error`).  The only
texts that are read though their tokens do not derive are those with a number, in the value of a
state, that comes from no number token (`ReadsOther`); numbers in opaque text are no concern of the
readers.
-/

namespace ShaderPass.Shader

open Grammar

variable {ts : List Token} {text : String} {tree tree' : Tree}

theorem parse_result (map : Source.Map) (h : tokenize text = .ok ts) :
    (parse text map).result = (readTokens (.ofText text map) ts).result := by
  rw [parse]
  simp only [h]

/-- A text is read as what its tokens derive if all that reads as a number counts for one. -/
theorem parse_eq_ok_iff (map : Source.Map) (h : tokenize text = .ok ts) :
    (parse text map).result = .ok tree ↔ File .lenient ts tree := by
  rw [parse_result map h]
  exact readTokens_eq_ok_iff

/-- Tokens that derive still do where an item may end earlier. -/
theorem Grammar.File.free (h : File .strict ts tree) : File .free ts tree :=
  File.mono (R := .strict) (fun h : False => h.elim) (numbersAgree_of_forall fun _ _ _ => id) h

/-- **A text is read just when its tokens derive from the grammar, and then as the one tree that
they derive.**  Tokens that derive are always read; tokens that are read derive, or a number of a
state is read from another token than a number token, which never happens where they derive. -/
theorem parse_eq_ok_of_file (map : Source.Map) (h : tokenize text = .ok ts) :
    (∀ tree, File .strict ts tree → (parse text map).result = .ok tree ∧ ¬ReadsOther ts) ∧
      (∀ tree, (parse text map).result = .ok tree → File .strict ts tree ∨ ReadsOther ts) ∧
      ∀ tree tree', File .strict ts tree → File .strict ts tree' → tree = tree' := by
  refine ⟨fun tree file => ?_, fun tree reads => ?_, fun _ _ => File.unique⟩
  · exact ⟨(parse_eq_ok_iff map h).2 file.lenient, file.not_readsOther⟩
  · have derives := (parse_eq_ok_iff map h).1 reads
    exact (em (ReadsOther ts)).symm.imp_left derives.strict_of_not_readsOther

/-- In a body of a stage a word for a number is text like any other: the file derives, is read as
what it derives, and reads no number from the word. -/
theorem parse_eq_ok_of_file_apply : ∃ ts tree,
    tokenize "SubShader{Pass{VertexShader{f(nan);}}}" = .ok ts ∧ File .strict ts tree ∧
      (parse "SubShader{Pass{VertexShader{f(nan);}}}" default).result = .ok tree ∧
      ¬ReadsOther ts := by
  have derives : ∃ ts, tokenize "SubShader{Pass{VertexShader{f(nan);}}}" = .ok ts ∧
      File .strict ts ⟨none, [⟨none, [.pass ⟨none, [.stage .vertex (.inline ⟨28, 35⟩)], ⟨10, 37⟩⟩],
        ⟨0, 38⟩⟩]⟩ := by
    refine ⟨_, by cbv, .plain (.subShader ?_ .nil) (List.cons_ne_nil _ _)⟩
    refine .intro rfl .absent rfl (.pass (.intro rfl .absent rfl (.item (.stage rfl
      (@StageForm.body .strict _ _ [_, _, _, _, _] _ rfl ?_ rfl)) (.close rfl))) (.close rfl)) rfl
      (List.cons_ne_nil _ _)
    iterate 5 refine .token rfl trivial ?_
    exact .nil
  obtain ⟨ts, htokens, file⟩ := derives
  exact ⟨ts, _, htokens, file, (parse_eq_ok_of_file default htokens).1 _ file⟩

/-- **Where items may end earlier, tokens that derive can be refused**: a name could be a variable
and the dot after it begin shared text, but a name before a dot is read as a type. -/
theorem exists_file_free_of_error : ∃ ts tree,
    tokenize "SubShader{Pass{RenderQueueType=x.y}}" = .ok ts ∧ File .free ts tree ∧
      (parse "SubShader{Pass{RenderQueueType=x.y}}" default).result =
        .error ⟨.unknownEnum "x", .unknown⟩ := by
  refine ⟨_, ⟨none, [⟨none, [.pass ⟨none, [.states [(⟨.renderQueueType, 0⟩, .variable "x")],
    .shared ⟨32, 34⟩ []], ⟨10, 35⟩⟩], ⟨0, 36⟩⟩]⟩, by cbv,
    .plain (.subShader ?_ .nil) (List.cons_ne_nil _ _), by cbv⟩
  refine .intro rfl .absent rfl (.pass (.intro rfl .absent rfl (.item (.queue rfl (.intro rfl
    (.var rfl fun h : False => h.elim) (.absent fun h : False => h.elim))) (.item
      (@Item.shared .free _ _ [_] _ rfl ?_ rfl) (.close rfl)))) (.close rfl)) rfl
    (List.cons_ne_nil _ _)
  exact .token rfl rfl (.token rfl rfl .nil)

end ShaderPass.Shader
