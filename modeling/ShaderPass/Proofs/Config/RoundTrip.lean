import Mathlib.Data.List.Induction
import ShaderPass.Proofs.Config.Format

/-!
# Proofs/Config/RoundTrip — a configuration comes back from its text, whatever lawful codec is used

    configuration ──encode──▸ text ──decode──▸ the configuration

The text that a lawful codec writes is text of the data of the configuration, and that data
describes the configuration (`describesConfig_data`): each part stands once under its name, macros
stand in their order with repeated names as they are, and texts put in one after the other in the
ascending order of their paths make the collection they come from (`Texts.ofList_entries`).
-/

namespace ShaderPass

/-! ## Texts in the order of their paths -/

/-- A text under a path greater than all others is put at the end. -/
theorem insertText_of_greatest {path text : String} {es : List (String × String)}
    (h : ∀ e ∈ es, e.1 < path) : insertText path text es = es ++ [(path, text)] := by
  induction es with
  | nil => rfl
  | cons e es ih =>
    obtain ⟨he, hes⟩ := List.forall_mem_cons.1 h
    have ne : path ≠ e.1 := fun heq => String.lt_irrefl _ (heq ▸ he)
    rw [insertText, if_neg (String.lt_asymm he), if_neg ne, ih hes, List.cons_append]

/-- Texts put in in ascending order stand in that order. -/
theorem Texts.entries_ofList {es : List (String × String)} (h : (es.map (·.1)).Pairwise (· < ·)) :
    (Texts.ofList es).entries = es := by
  induction es using List.reverseRecOn with
  | nil => rfl
  | append_singleton es e ih =>
    rw [List.map_append, List.pairwise_append] at h
    obtain ⟨hes, -, hlt⟩ := h
    rw [Texts.ofList, List.foldl_append]
    show insertText e.1 e.2 (Texts.ofList es).entries = _
    rw [ih hes]
    exact insertText_of_greatest fun d hd => hlt _ (List.mem_map_of_mem hd) _ (by simp)

/-- Collections of texts are equal where their entries are. -/
theorem Texts.eq_of_entries {s t : Texts} (h : s.entries = t.entries) : s = t := by
  cases s
  cases t
  cases h
  rfl

/-- Putting in all texts of a collection gives the collection. -/
theorem Texts.ofList_entries (t : Texts) : ofList t.entries = t :=
  eq_of_entries (entries_ofList t.ascending)

namespace Config

open Json (Data)

/-! ## The data of a configuration -/

theorem describesOptional_ofText? : ∀ t : Option String, DescribesOptional (.ofText? t) t
  | some t => .text t
  | none => .null

/-- The data of a macro describes it, with or without a body. -/
theorem describesMacro_macroData (m : PredefinedMacro) : DescribesMacro (macroData m) m :=
  .intro (by simp) (.given (d := .text m.name) (by simp) (.text _))
    (.given (d := .ofText? m.body) (by simp) (describesOptional_ofText? _))

/-- The data of macros describes them in their order. -/
theorem describesMacros_array (ms : List PredefinedMacro) :
    DescribesMacros (.array (ms.map macroData)) ms := by
  have := @DescribesMacros.array (ms.map fun m => (macroData m, m))
    (List.forall_mem_map.2 fun m _ => describesMacro_macroData m)
  rw [List.map_map, List.map_map] at this
  exact Eq.subst (List.map_id ms) this

/-- The data of texts describes them, in the ascending order of their paths. -/
theorem describesTexts_textsData (t : Texts) : DescribesTexts (textsData t) t := by
  have := DescribesTexts.object t.entries
  rwa [t.ofList_entries] at this

/-- **The data of a configuration describes it.** -/
theorem describesConfig_data (c : Config) : DescribesConfig c.data c :=
  .intro (by simp) (.given (d := .text c.rootUnit) (by simp) (.text _))
    (.given (d := .text c.basePath) (by simp) (.text _))
    (.given (d := .array (c.predefined.map macroData)) (by simp) (describesMacros_array _))
    (.given (d := textsData c.includes) (by simp) (describesTexts_textsData _))

end Config

/-! ## There and back -/

/-- **Every configuration is decoded from what it is encoded as**, by any lawful codec. -/
theorem Codec.decode_encode {C : Codec} (h : C.Lawful) (c : Config) :
    (C.encode c).bind C.decode = .ok c := by
  obtain ⟨text, write, isText⟩ := h.writes c
  have read : C.read text = .ok c := h.reads isText c.describesConfig_data
  rw [encode, write]
  show C.decode text = _
  rw [decode, read]
  rfl

/-- A configuration with all kinds of characters in its texts, with two macros of one name, one of
them without a body, and with texts that are put in against the order of their paths. -/
theorem Codec.decode_encode_apply :
    let c : Config := ⟨"a\x1b\"\\é", "/", [⟨"N", some "1\n2"⟩, ⟨"N", none⟩],
      .ofList [("b.glsl", "\x00"), ("a.glsl", "")]⟩
    Config.codec.Lawful ∧ (Config.codec.encode c).bind Config.codec.decode = .ok c := by
  intro c
  exact ⟨Config.codec_lawful, decode_encode Config.codec_lawful c⟩

end ShaderPass
