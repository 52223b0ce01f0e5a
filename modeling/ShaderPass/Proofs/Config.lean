import ShaderPass.Config.Basic
import ShaderPass.Proofs.Dictionary
import ShaderPass.Proofs.Text.Order
import ShaderPass.Proofs.VirtualPath

/-!
# Proofs/Config — the texts of a configuration under their paths in normal form

    configured     ./a.glsl   a.glsl   lib/../a.glsl        ascending
    normal form      a.glsl   a.glsl         a.glsl  ◂── this text counts

Paths that are spelled differently may have one normal form.  The text that a path in normal form
stands for is that of the greatest of the configured paths with this form (`standsFor_iff`).
Putting the texts under their normal forms a second time changes nothing, since a normal form is its
own.
-/

namespace ShaderPass

open Preprocess (Library)

variable {config : Config} {name text : String}

/-- Of the texts that a library is made of, the last one under a path counts. -/
theorem Preprocess.Library.text?_ofTexts (texts : List (String × String)) (name : String) :
    (Library.ofTexts texts).text? name =
      lastValue? (texts.map fun (path, text) => (VirtualPath.normalize path, text)) name := rfl

namespace Config

/-- The texts under their paths in normal form, in the order of the paths as they are spelled. -/
def normalTexts (c : Config) : List (String × String) :=
  c.includes.entries.map fun (path, text) => (VirtualPath.normalize path, text)

/-- A path in normal form **stands for** a text if this is the text of a path with that form, and
no path with it is greater, byte by byte. -/
structure StandsFor (c : Config) (name text : String) (path : String) : Prop where
  configured : (path, text) ∈ c.includes.entries
  normal : VirtualPath.normalize path = name
  greatest : ∀ e ∈ c.includes.entries, VirtualPath.normalize e.1 = name →
    ¬Text.bytes path < Text.bytes e.1

/-- Putting texts under normal forms twice is putting them there once. -/
theorem text?_library_eq (c : Config) (name : String) :
    c.library.text? name = lastValue? c.normalTexts name := by
  have normal : c.includeMap.entries.map (fun (path, text) => (VirtualPath.normalize path, text)) =
      c.includeMap.entries := by
    refine (List.map_congr_left fun e he => ?_).trans (List.map_id _)
    have found : c.includeMap.get? e.1 = some e.2 := Dictionary.get?_eq_some_iff.2 he
    rw [includeMap, Dictionary.get?_ofList] at found
    obtain ⟨d, -, hd⟩ := List.mem_map.1 (mem_of_lastValue? found)
    have key : VirtualPath.normalize d.1 = e.1 := congrArg Prod.fst hd
    show (VirtualPath.normalize e.1, e.2) = e
    rw [← key, VirtualPath.normalize_normalize, key]
  calc c.library.text? name
      = lastValue? c.includeMap.entries name := by rw [library, Library.text?_ofTexts, normal]
    _ = c.includeMap.get? name := Dictionary.lastValue?_entries _ _
    _ = lastValue? c.normalTexts name := Dictionary.get?_ofList _ _

/-- A path comes before those that stand after it. -/
theorem lt_of_entries {before after : List (String × String)} {d e : String × String}
    (h : config.includes.entries = before ++ d :: after) (he : e ∈ after) : d.1 < e.1 := by
  have ascending := config.includes.ascending
  rw [h, List.pairwise_map, List.pairwise_append] at ascending
  exact List.rel_of_pairwise_cons ascending.2.1 he

/-- **A path in normal form stands for the text of the greatest of the configured paths with this
form.** -/
theorem standsFor_iff : config.library.text? name = some text ↔
    ∃ path, config.StandsFor name text path := by
  rw [text?_library_eq, lastValue?_eq_some_iff]
  constructor
  · rintro ⟨before, after, h, hafter⟩
    obtain ⟨before, rest, entries, rfl, hrest⟩ := List.map_eq_append_iff.1 h
    obtain ⟨⟨path, text⟩, after, rfl, he, rfl⟩ := List.map_eq_cons_iff.1 hrest
    obtain ⟨rfl, rfl⟩ := Prod.mk.inj he
    refine ⟨path, entries ▸ List.mem_append_right _ List.mem_cons_self, rfl, ?_⟩
    intro d hd normal greater
    rw [← Text.lt_iff_bytes_lt] at greater
    have hafter' : d ∉ after := fun hd => hafter _ (List.mem_map.2 ⟨d, hd, rfl⟩) normal
    rw [entries] at hd
    rcases List.mem_append.1 hd with hd | hd
    · obtain ⟨pre, post, rfl⟩ := List.append_of_mem hd
      have less : d.1 < path := lt_of_entries (entries.trans (List.append_assoc _ _ _))
        (List.mem_append_right post List.mem_cons_self)
      exact String.lt_irrefl _ (String.lt_trans less greater)
    · rcases List.mem_cons.1 hd with rfl | hd
      · exact String.lt_irrefl _ greater
      · exact hafter' hd
  · rintro ⟨path, configured, rfl, greatest⟩
    obtain ⟨before, after, entries⟩ := List.append_of_mem configured
    refine ⟨_, _, by rw [normalTexts, entries, List.map_append, List.map_cons], ?_⟩
    intro e he normal
    obtain ⟨d, hd, rfl⟩ := List.mem_map.1 he
    refine greatest d ?_ normal (Text.lt_iff_bytes_lt.1 (lt_of_entries entries hd))
    exact entries ▸ List.mem_append_right _ (List.mem_cons_of_mem _ hd)

/-! ## Finding a text -/

/-- Whether a path is the normal form of one that is configured. -/
def Knows (c : Config) (name : String) : Prop :=
  ∃ e ∈ c.includes.entries, VirtualPath.normalize e.1 = name

theorem contains_library_iff : config.library.contains name = true ↔ config.Knows name := by
  rw [Library.contains, text?_library_eq, isSome_lastValue?, List.mem_map]
  constructor
  · rintro ⟨d, hd, rfl⟩
    obtain ⟨e, he, rfl⟩ := List.mem_map.1 hd
    exact ⟨e, he, rfl⟩
  · rintro ⟨e, he, rfl⟩
    exact ⟨_, List.mem_map.2 ⟨e, he, rfl⟩, rfl⟩

/-- The paths that a path in a unit may mean, in the order in which they are tried: read from the
directory of the unit, from the base directory, and from the root. -/
def candidates (c : Config) (directory path : String) : List String :=
  [VirtualPath.join directory path, VirtualPath.join c.basePath path, VirtualPath.normalize path]

/-- A path in a unit **finds** a text: of the paths that it may mean, the first that is the normal
form of one that is configured stands for the text. -/
structure Finds (c : Config) (directory path name text : String) : Prop where
  first : ∃ before after, c.candidates directory path = before ++ name :: after ∧
    c.Knows name ∧ ∀ other ∈ before, ¬c.Knows other
  stands : ∃ spelling, c.StandsFor name text spelling

/-- It is all one whether the base directory is in normal form. -/
theorem resolve?_library (c : Config) (directory path : String) :
    c.library.resolve? directory (VirtualPath.normalize c.basePath) path =
      (c.candidates directory path).find? c.library.contains := by
  rw [Library.resolve?, Library.candidates, VirtualPath.join_normalize]
  rfl

/-- **A path finds the text that it is resolved to.** -/
theorem finds_iff {directory path : String} : config.Finds directory path name text ↔
    config.library.resolve? directory (VirtualPath.normalize config.basePath) path = some name ∧
      config.library.text? name = some text := by
  rw [resolve?_library, List.find?_eq_some_iff_append, contains_library_iff, standsFor_iff]
  have unknown {other : String} : (!config.library.contains other) = true ↔ ¬config.Knows other := by
    rw [← contains_library_iff, Bool.not_eq_true', Bool.not_eq_true]
  constructor
  · rintro ⟨⟨before, after, h, known, hbefore⟩, stands⟩
    exact ⟨⟨known, before, after, h, fun other hother => unknown.2 (hbefore other hother)⟩, stands⟩
  · rintro ⟨⟨known, before, after, h, hbefore⟩, stands⟩
    exact ⟨⟨before, after, h, known, fun other hother => unknown.1 (hbefore other hother)⟩, stands⟩

/-- A path finds nothing where none of the paths that it may mean is known. -/
theorem resolve?_eq_none_iff {directory path : String} :
    config.library.resolve? directory (VirtualPath.normalize config.basePath) path = none ↔
      ∀ name ∈ config.candidates directory path, ¬config.Knows name := by
  rw [resolve?_library, List.find?_eq_none]
  exact forall₂_congr fun name _ => not_congr contains_library_iff

end Config

end ShaderPass
