import ShaderPass.Config.Format
import ShaderPass.Proofs.Json.Pretty
import ShaderPass.Proofs.Json.Reading

/-!
# Proofs/Config/Format — configurations written with one item a line, and read, make a lawful codec

    data     object [("name", d), …]          describes a macro, a collection of texts, …
    value    object [(spelling, v), …]        each v stands for its d, each spelling spells its name

A value that stands for the data of something is decoded to it.  Each part of a record is looked for
by its name, among the members of the value as among those of the data (`GivesPart.part?`), so every
record is decoded by the laws of its parts.
-/

namespace ShaderPass

/-- Where items stand next to what others have on the left, and each of them gives what the other
has on the right, all of them give what all others have on the right. -/
theorem mapM_eq_some {α β γ δ : Type} {f : α → Option δ} {items : List (α × β)} {others : List γ}
    {left : γ → β} {right : γ → δ} (next : items.map (·.2) = others.map left)
    (each : ∀ i ∈ items, ∀ o ∈ others, i.2 = left o → f i.1 = some (right o)) :
    (items.map (·.1)).mapM f = some (others.map right) := by
  induction items generalizing others with
  | nil =>
    obtain rfl := List.map_eq_nil_iff.1 next.symm
    rfl
  | cons i is ih =>
    cases others with
    | nil => cases next
    | cons o os =>
      obtain ⟨first, rest⟩ := List.cons.inj next
      rw [List.map_cons, List.mapM_cons, each i List.mem_cons_self o List.mem_cons_self first,
        ih rest fun j hj p hp => each j (List.mem_cons_of_mem _ hj) p (List.mem_cons_of_mem _ hp)]
      rfl

namespace Json.Stands

variable {v : Value}

/-- What stands for an array is one, of values that stand for its items. -/
theorem exists_array {items : List Data} (h : Stands v (.array items)) :
    ∃ both : List (Value × Data), v = .array (both.map (·.1)) ∧ both.map (·.2) = items ∧
      ∀ i ∈ both, Stands i.1 i.2 := by
  cases h with
  | array each => exact ⟨_, rfl, rfl, each⟩

/-- What stands for an object is one, of values that stand for those of its members. -/
theorem exists_object {members : List (String × Data)} (h : Stands v (.object members)) :
    ∃ both : List ((Spelling × Value) × (String × Data)), v = .object (both.map (·.1)) ∧
      both.map (·.2) = members ∧ (∀ m ∈ both, Spelling.text? m.1.1 = some m.2.1) ∧
        ∀ m ∈ both, Stands m.1.2 m.2.2 := by
  cases h with
  | object named each => exact ⟨_, rfl, rfl, named, each⟩

end Json.Stands

namespace Config

open Json (Data Value Spelling Stands)

variable {v : Value} {d : Data}

/-! ## Texts -/

theorem text?_of_stands {t : String} (h : Stands v d) (describes : DescribesText d t) :
    v.text? = some t := by
  cases describes
  cases h with
  | text spelled => exact spelled

theorem textOrNull?_of_stands {t : Option String} (h : Stands v d)
    (describes : DescribesOptional d t) : textOrNull? v = some t := by
  cases describes with
  | null => cases h; rfl
  | text t =>
    cases h with
    | text spelled => exact congrArg (Option.map some) spelled

/-! ## The parts of a record -/

section Parts

variable {both : List ((Spelling × Value) × (String × Data))}
  (named : ∀ m ∈ both, Spelling.text? m.1.1 = some m.2.1)
  (stands : ∀ m ∈ both, Stands m.1.2 m.2.2)

include named

/-- Members of a record are found by their names as those of its data are. -/
theorem filter_named (name : String) :
    (both.map (·.1)).filter (fun m => Spelling.text? m.1 = some name) =
      (both.filter (·.2.1 = name)).map (·.1) := by
  rw [List.filter_map]
  exact congrArg _ (List.filter_congr fun m hm => by simp [named m hm])

/-- The parts of a record are those found under their names. -/
theorem parts_object (names : List String) :
    parts names (.object (both.map (·.1))) = names.mapM (part? (both.map (·.1))) := by
  rw [parts, if_pos]
  rw [List.all_map, List.all_eq_true]
  intro m hm
  rw [Function.comp_apply, named m hm, Option.isSome_some]

include stands

/-- **What the data of a record gives for a part is decoded from the value that stands for it.** -/
theorem GivesPart.part? {α : Type} {name : String} {missing : Option α}
    {Describes : Data → α → Prop} {a : α} {read : Value → Option α}
    (h : GivesPart (both.map (·.2)) name missing Describes a)
    (reads : ∀ {v : Value} {d : Data}, Stands v d → Describes d a → read v = some a) :
    ∃ part, Config.part? (both.map (·.1)) name = some part ∧
      orElse missing read part = some a := by
  have data : (both.map (·.2)).filter (·.1 = name) = (both.filter (·.2.1 = name)).map (·.2) :=
    List.filter_map
  cases h with
  | given once describes =>
    rw [data] at once
    obtain ⟨m, found, eq⟩ := List.map_eq_singleton_iff.1 once
    have mem : m ∈ both := (List.mem_filter.1 (found ▸ List.mem_singleton_self m)).1
    refine ⟨some m.1.2, ?_, reads (stands m mem) (eq ▸ describes)⟩
    rw [Config.part?, filter_named named, found]
    rfl
  | missing absent default =>
    rw [data, List.map_eq_nil_iff] at absent
    refine ⟨none, ?_, default⟩
    rw [Config.part?, filter_named named, absent]
    rfl

end Parts

/-! ## Records -/

/-- A macro is decoded from a value that stands for data of it. -/
theorem macro?_of_stands {m : PredefinedMacro} (h : Stands v d) (describes : DescribesMacro d m) :
    macro? v = some m := by
  obtain ⟨-, name, body⟩ := describes
  obtain ⟨both, rfl, rfl, named, stands⟩ := h.exists_object
  obtain ⟨namePart, hname, readName⟩ := name.part? named stands text?_of_stands
  obtain ⟨bodyPart, hbody, readBody⟩ := body.part? named stands textOrNull?_of_stands
  rw [macro?, parts_object named]
  simp only [List.mapM_cons, List.mapM_nil, hname, hbody, Option.pure_def, Option.bind_eq_bind,
    Option.bind_some, readName, readBody]

/-- Macros are decoded one by one. -/
theorem macros?_of_stands {ms : List PredefinedMacro} (h : Stands v d)
    (describes : DescribesMacros d ms) : macros? v = some ms := by
  obtain ⟨each⟩ := describes
  obtain ⟨both, rfl, data, stands⟩ := h.exists_array
  exact mapM_eq_some data fun i hi m hm eq => macro?_of_stands (stands i hi) (eq ▸ each m hm)

/-- Texts are decoded one by one, and put in in that order. -/
theorem texts?_of_stands {t : Texts} (h : Stands v d) (describes : DescribesTexts d t) :
    texts? v = some t := by
  obtain ⟨entries⟩ := describes
  obtain ⟨both, rfl, data, named, stands⟩ := h.exists_object
  have read : (both.map (·.1)).mapM pathAndText? = some (entries.map id) := by
    refine mapM_eq_some data fun m hm e _ eq => ?_
    have describes : DescribesText m.2.2 e.2 := by
      rw [eq]
      exact .text e.2
    have text : m.1.2.text? = some e.2 := text?_of_stands (stands m hm) describes
    rw [pathAndText?, named m hm, text, eq]
    rfl
  rw [texts?, read, List.map_id, Option.map_some]

/-- **A value that stands for data of a configuration is decoded to the configuration.** -/
theorem ofValue?_of_stands {c : Config} (h : Stands v d) (describes : DescribesConfig d c) :
    ofValue? v = some c := by
  obtain ⟨-, rootUnit, basePath, predefined, includes⟩ := describes
  obtain ⟨both, rfl, rfl, named, stands⟩ := h.exists_object
  obtain ⟨rootPart, hroot, readRoot⟩ := rootUnit.part? named stands text?_of_stands
  obtain ⟨basePart, hbase, readBase⟩ := basePath.part? named stands text?_of_stands
  obtain ⟨macrosPart, hmacros, readMacros⟩ := predefined.part? named stands macros?_of_stands
  obtain ⟨textsPart, htexts, readTexts⟩ := includes.part? named stands texts?_of_stands
  rw [ofValue?, parts_object named]
  simp only [List.mapM_cons, List.mapM_nil, hroot, hbase, hmacros, htexts, Option.pure_def,
    Option.bind_eq_bind, Option.bind_some, readRoot, readBase, readMacros, readTexts]

/-- **What configurations are written and read by is a lawful codec.** -/
theorem codec_lawful : codec.Lawful where
  writes c := ⟨c.write, rfl, Value.isText_pretty c.data⟩
  reads {text d c} isText describes := by
    obtain ⟨v, hread, stands⟩ := Json.read_of_isText isText
    show (Config.read text).elim _ _ = _
    rw [Config.read, hread, Option.bind_some, ofValue?_of_stands stands describes]
    rfl

end Config

end ShaderPass
