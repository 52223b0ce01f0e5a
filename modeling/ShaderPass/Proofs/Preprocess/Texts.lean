import ShaderPass.Proofs.Config
import ShaderPass.Proofs.Preprocess.History

/-!
# Proofs/Preprocess/Texts — when the order in which texts are taken in does not matter

    a ↦ 1   ./a ↦ 2          include "a"  gives  2
    ./a ↦ 2   a ↦ 1          include "a"  gives  1

Paths of different spelling have one normal form, and of the texts under them the one that is taken in
last counts.  So the order does not matter to which paths are known, but to what they lead to, unless
texts whose paths have one normal form are the same.  Where they are, sessions that took them in in any
order do the same ever after (`reset_unordered_iff`).
-/

namespace ShaderPass.Preprocess

open VirtualPath (normalize)

namespace Library

variable {texts texts' : List (String × String)}

/-- Whether texts whose paths have one normal form are the same. -/
def Consistent (texts : List (String × String)) : Prop :=
  ∀ d ∈ texts, ∀ e ∈ texts, normalize d.1 = normalize e.1 → d.2 = e.2

instance : Decidable (Consistent texts) :=
  inferInstanceAs (Decidable (∀ d ∈ texts, ∀ e ∈ texts, _))

/-- A text under the normal form of its path. -/
def normalEntry (d : String × String) : String × String := (normalize d.1, d.2)

theorem text?_ofTexts_eq (texts : List (String × String)) (path : String) :
    (ofTexts texts).text? path = lastValue? (texts.map normalEntry) path := rfl

/-- Which paths are known does not depend on the order of the texts. -/
theorem contains_of_perm (h : texts.Perm texts') (path : String) :
    (ofTexts texts').contains path = (ofTexts texts).contains path := by
  have known := (h.map normalEntry).map (·.1)
  rw [Bool.eq_iff_iff, contains, contains, text?_ofTexts_eq, text?_ofTexts_eq, isSome_lastValue?,
    isSome_lastValue?, known.mem_iff]

/-- **What a path is resolved to does not depend on the order of the texts.** -/
theorem resolve?_of_perm (h : texts.Perm texts') (directory basePath path : String) :
    (ofTexts texts').resolve? directory basePath path =
      (ofTexts texts).resolve? directory basePath path := by
  rw [resolve?, resolve?, funext (contains_of_perm h)]

/-- A path leads to the text that is taken in last. -/
theorem text?_ofTexts_last (texts : List (String × String)) (d : String × String) :
    (ofTexts (texts ++ [d])).text? (normalize d.1) = some d.2 := by
  rw [text?_ofTexts_eq, List.map_append, List.map_singleton, lastValue?_append_singleton, normalEntry,
    if_pos rfl]

/-- Texts that are consistent are so under the normal forms of their paths. -/
theorem Consistent.agree (h : Consistent texts) :
    ∀ d ∈ texts.map normalEntry, ∀ e ∈ texts.map normalEntry, d.1 = e.1 → d.2 = e.2 := by
  intro d' hd' e' he' hpath
  obtain ⟨d, hd, rfl⟩ := List.mem_map.1 hd'
  obtain ⟨e, he, rfl⟩ := List.mem_map.1 he'
  exact h d hd e he hpath

/-- **The texts do not depend on their order just when they are consistent.** -/
theorem consistent_iff : Consistent texts ↔
    ∀ texts', texts.Perm texts' → ∀ path, (ofTexts texts').text? path = (ofTexts texts).text? path := by
  constructor
  · intro consistent texts' perm path
    have consistent' : Consistent texts' := fun d hd e he =>
      consistent d (perm.mem_iff.2 hd) e (perm.mem_iff.2 he)
    refine Option.ext fun text => ?_
    rw [text?_ofTexts_eq, text?_ofTexts_eq, lastValue?_of_agree consistent.agree,
      lastValue?_of_agree consistent'.agree, (perm.map normalEntry).mem_iff]
  · intro unordered
    -- each text can be the one that is taken in last
    have last : ∀ d ∈ texts, (ofTexts texts).text? (normalize d.1) = some d.2 := by
      intro d hd
      obtain ⟨before, after, rfl⟩ := List.append_of_mem hd
      have perm : (before ++ d :: after).Perm (before ++ after ++ [d]) :=
        List.perm_middle.trans (List.perm_append_singleton d (before ++ after)).symm
      rw [← unordered _ perm, text?_ofTexts_last]
    intro d hd e he hpath
    exact Option.some.inj ((last d hd).symm.trans (hpath ▸ last e he))

end Library

namespace Session

open Library (Consistent)

variable {p q : Session} {texts texts' : List (String × String)}

/-! ## Sessions that stay alike -/

/-- **Sessions that are alike stay alike, whatever both are used for**, if they have the same predefined
macros. -/
theorem Alike.perform (h : p.Alike q) (predefined : q.predefined = p.predefined)
    (operation : Operation) : (p.perform operation).Alike (q.perform operation) ∧
      (q.perform operation).predefined = (p.perform operation).predefined := by
  cases operation with
  | setRootUnit name => exact ⟨⟨h.macros, h.texts, h.basePath, rfl⟩, predefined⟩
  | predefine name body =>
    unfold Session.perform Session.predefine
    dsimp only
    cases Macro.Definition.read name none (body.getD defaultBody) with
    | error fault => exact ⟨h, predefined⟩
    | ok d =>
      refine ⟨⟨h.macros.define d, h.texts, h.basePath, h.rootUnit⟩, ?_⟩
      exact congrArg (·.filter (·.1 ≠ name) ++ [(name, body.getD defaultBody)]) predefined
  | tryProcess source => exact ⟨(h.tryProcess source).2.2, predefined⟩
  | process source =>
    obtain ⟨e, he⟩ := exists_process_eq p source
    obtain ⟨e', he'⟩ := exists_process_eq q source
    obtain ⟨-, -, alike⟩ := h.tryProcess source
    rw [Session.perform, Session.perform, he, he']
    exact ⟨⟨alike.macros, alike.texts, alike.basePath, alike.rootUnit⟩, predefined⟩
  | takeSourceMap => exact ⟨⟨h.macros, h.texts, h.basePath, h.rootUnit⟩, predefined⟩
  | reset texts basePath =>
    have macros : (q.reset texts basePath).macros = (p.reset texts basePath).macros :=
      congrArg (·.foldl seed .empty) predefined
    exact ⟨⟨fun name => congrArg (·.get? name) macros, fun _ => rfl, rfl, h.rootUnit⟩, predefined⟩

theorem Alike.foldl_perform (h : p.Alike q) (predefined : q.predefined = p.predefined)
    (history : List Operation) : (history.foldl Session.perform p).Alike
      (history.foldl Session.perform q) := by
  induction history generalizing p q with
  | nil => exact h
  | cons operation history ih =>
    obtain ⟨alike, predefined⟩ := h.perform predefined operation
    exact ih alike predefined

/-! ## Resetting with texts in any order -/

/-- Resets with consistent texts in any order leave sessions that are alike. -/
theorem alike_reset (h : Consistent texts) (perm : texts.Perm texts') (p : Session)
    (basePath : String) : (p.reset texts basePath).Alike (p.reset texts' basePath) :=
  ⟨fun _ => rfl, Library.consistent_iff.1 h texts' perm, rfl, rfl⟩

/-- **The order in which texts are taken in matters to what their paths lead to just where two of them
whose paths have one normal form differ.**  Which path a path in a directive is resolved to does not
depend on it.  Where no two differ, nothing does: after a reset with the texts in any order the session
finds the same text under every path and gives the same output or failure, with the same source map, for
every source, whatever it is used for before. -/
theorem reset_unordered_iff (p : Session) (texts : List (String × String)) (basePath : String) :
    (Consistent texts ↔ ∀ texts', texts.Perm texts' → ∀ path,
      (p.reset texts' basePath).library.text? path = (p.reset texts basePath).library.text? path) ∧
    (∀ texts', texts.Perm texts' → ∀ directory path,
      (p.reset texts' basePath).library.resolve? directory (normalize basePath) path =
        (p.reset texts basePath).library.resolve? directory (normalize basePath) path) ∧
    (Consistent texts → ∀ texts', texts.Perm texts' → ∀ (history : List Operation) source,
      let q := history.foldl perform (p.reset texts basePath)
      let q' := history.foldl perform (p.reset texts' basePath)
      (∀ path, q'.library.text? path = q.library.text? path) ∧
        (q'.tryProcess source).1 = (q.tryProcess source).1 ∧
        (q'.tryProcess source).2.2.sourceMap = (q.tryProcess source).2.2.sourceMap) := by
  refine ⟨Library.consistent_iff, fun texts' perm directory path => ?_, ?_⟩
  · exact Library.resolve?_of_perm perm directory (normalize basePath) path
  · intro consistent texts' perm history source q q'
    have alike : q.Alike q' := (alike_reset consistent perm p basePath).foldl_perform rfl history
    obtain ⟨result, map, -⟩ := alike.tryProcess source
    exact ⟨alike.texts, result, map⟩

/-- One text under two spellings of a path. -/
theorem reset_unordered_iff_apply :
    Consistent [("a", "1"), ("./a", "1")] ∧ [("a", "1"), ("./a", "1")].Perm [("./a", "1"), ("a", "1")] ∧
      (((new.reset [("./a", "1"), ("a", "1")] "").perform (.predefine "A" none)).tryProcess
          "#include \"a\"\n").1 =
        (((new.reset [("a", "1"), ("./a", "1")] "").perform (.predefine "A" none)).tryProcess
          "#include \"a\"\n").1 := by
  have consistent : Consistent [("a", "1"), ("./a", "1")] := by decide
  have perm : [("a", "1"), ("./a", "1")].Perm [("./a", "1"), ("a", "1")] := .swap ..
  obtain ⟨-, -, same⟩ := reset_unordered_iff new [("a", "1"), ("./a", "1")] ""
  exact ⟨consistent, perm, (same consistent _ perm [.predefine "A" none] "#include \"a\"\n").2.1⟩

/-- Two texts under two spellings of a path: the order in which they are taken in is seen in what is
put out. -/
theorem reset_order_seen :
    (["a", "./a"] : List String).Nodup ∧ [("a", "1"), ("./a", "2")].Perm [("./a", "2"), ("a", "1")] ∧
      ((new.reset [("a", "1"), ("./a", "2")] "").tryProcess "#include \"a\"\n").1 = .ok "2\n" ∧
      ((new.reset [("./a", "2"), ("a", "1")] "").tryProcess "#include \"a\"\n").1 = .ok "1\n" := by
  refine ⟨by decide, .swap .., by cbv, by cbv⟩

end Session

end ShaderPass.Preprocess
