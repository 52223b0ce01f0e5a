import ShaderPass.Proofs.Config.Walk
import ShaderPass.Proofs.Dictionary

/-!
# Proofs/Config/Directory — taking in a directory overrides texts by those of its shader files

    common.glsl   lib/brdf/ggx.frag   lib/light.inc       texts, texts, …   all taken in
    common.glsl   lib/brdf/ggx.frag   lib/noise.inc       text, text, ff fe   two taken in

The shader files of a directory are all texts, or one of them is the first that is none.  In both
cases the texts before that are put under their joined names, one for each file, and nothing else is
changed (`takesIn_addDirectory`).
-/

namespace ShaderPass.Config

open DirectoryEntry

variable {c : Config} {texts : List (List String × String)}

/-! ## Texts overridden by others -/

/-- Takes in texts under their joined names. -/
def addTexts (c : Config) (texts : List (List String × String)) : Config :=
  texts.foldl (fun c t => c.addText (joined t.1) t.2) c

/-- A configuration is another one with its texts **overridden** by some: these are under their
joined names, every other path has the text that it had, and nothing else is changed. -/
structure Overridden (c c' : Config) (texts : List (List String × String)) : Prop where
  taken : ∀ t ∈ texts, c'.includes.get? (joined t.1) = some t.2
  kept : ∀ key, (∀ t ∈ texts, joined t.1 ≠ key) → c'.includes.get? key = c.includes.get? key
  others : c' = { c with includes := c'.includes }

theorem addTexts_concat (c : Config) (texts : List (List String × String))
    (t : List String × String) :
    c.addTexts (texts ++ [t]) = (c.addTexts texts).addText (joined t.1) t.2 := by
  rw [addTexts, List.foldl_append]
  rfl

/-- Of the texts taken in under a path the last one counts, and without any the text that was
there. -/
theorem get?_addTexts (c : Config) (texts : List (List String × String)) (key : String) :
    (c.addTexts texts).includes.get? key =
      (lastValue? (texts.map fun t => (joined t.1, t.2)) key).or (c.includes.get? key) := by
  induction texts using List.reverseRecOn with
  | nil => rfl
  | append_singleton texts t ih =>
    rw [addTexts_concat, addText, Texts.get?_insert, ih, List.map_append, List.map_singleton,
      lastValue?_append_singleton]
    split <;> rfl

theorem addTexts_eq (c : Config) (texts : List (List String × String)) :
    c.addTexts texts = { c with includes := (c.addTexts texts).includes } := by
  induction texts generalizing c with
  | nil => rfl
  | cons t ts ih => exact ih (c.addText (joined t.1) t.2)

theorem overridden_addTexts (c : Config) (h : (texts.map fun t => joined t.1).Nodup) :
    Overridden c (c.addTexts texts) texts where
  taken t ht := by
    have distinct : ((texts.map fun t => (joined t.1, t.2)).map (·.1)).Nodup := by
      rwa [List.map_map]
    rw [get?_addTexts, (lastValue?_of_nodup distinct).2 (List.mem_map_of_mem ht), Option.some_or]
  kept key hkey := by
    have absent : lastValue? (texts.map fun t => (joined t.1, t.2)) key = none := by
      rw [lastValue?_eq_none_iff, List.map_map, List.mem_map]
      rintro ⟨t, ht, rfl⟩
      exact hkey t ht rfl
    rw [get?_addTexts, absent, Option.none_or]
  others := addTexts_eq c texts

/-! ## Texts and files that are none -/

/-- A text as the bytes of a file. -/
def encoded (t : List String × String) : List String × ByteArray := (t.1, t.2.toByteArray)

theorem fromUTF8?_eq_some_iff {bytes : ByteArray} {text : String} :
    String.fromUTF8? bytes = some text ↔ text.toByteArray = bytes := by
  rw [String.fromUTF8?]
  constructor
  · intro h
    split at h
    · rw [← Option.some.inj h]
      rfl
    · cases h
  · rintro rfl
    exact dif_pos text.isValidUTF8

/-- Files are all texts, or one is the first that is none. -/
theorem texts_or_first (files : List (List String × ByteArray)) :
    (∃ texts : List (List String × String), files = texts.map encoded) ∨
      ∃ (texts : List (List String × String)) (f : List String × ByteArray)
        (rest : List (List String × ByteArray)),
        files = texts.map encoded ++ f :: rest ∧ String.fromUTF8? f.2 = none := by
  induction files with
  | nil => exact .inl ⟨[], rfl⟩
  | cons f fs ih =>
    cases h : String.fromUTF8? f.2 with
    | none => exact .inr ⟨[], f, fs, rfl, h⟩
    | some text =>
      have head : f = encoded (f.1, text) := Prod.ext rfl (fromUTF8?_eq_some_iff.1 h).symm
      rcases ih with ⟨texts, rfl⟩ | ⟨texts, g, rest, rfl, hg⟩
      · exact .inl ⟨(f.1, text) :: texts, by rw [List.map_cons, ← head]⟩
      · exact .inr ⟨(f.1, text) :: texts, g, rest, by rw [List.map_cons, List.cons_append, ← head],
          hg⟩

/-- The texts at the front are taken in one by one, and counted. -/
theorem addFiles_encoded (c : Config) (texts : List (List String × String))
    (rest : List (String × ByteArray)) :
    c.addFiles ((texts.map encoded).map (fun f => (joined f.1, f.2)) ++ rest) =
      Prod.map id (Except.map (· + texts.length)) ((c.addTexts texts).addFiles rest) := by
  induction texts generalizing c with
  | nil =>
    show c.addFiles rest = Prod.map id (Except.map (· + 0)) (c.addFiles rest)
    rcases c.addFiles rest with ⟨c', _ | _⟩ <;> rfl
  | cons t ts ih =>
    have isText : String.fromUTF8? (encoded t).2 = some t.2 := fromUTF8?_eq_some_iff.2 rfl
    have hts := ih (c.addText (joined t.1) t.2)
    rw [List.map_cons, List.map_cons, List.cons_append, addFiles, isText]
    show Prod.map id (Except.map (· + 1)) ((c.addText (joined t.1) t.2).addFiles _) = _
    rw [hts]
    show Prod.map id _ (Prod.map id _ ((c.addTexts (t :: ts)).addFiles rest)) = _
    rcases (c.addTexts (t :: ts)).addFiles rest with ⟨c', _ | _⟩ <;> rfl

theorem addFiles_of_texts (c : Config) (texts : List (List String × String)) :
    c.addFiles ((texts.map encoded).map fun f => (joined f.1, f.2)) =
      (c.addTexts texts, .ok texts.length) := by
  have h := addFiles_encoded c texts []
  rw [List.append_nil] at h
  rw [h, addFiles, Prod.map_apply, Except.map, Nat.zero_add]
  rfl

theorem addFiles_of_first (c : Config) (texts : List (List String × String))
    {f : List String × ByteArray} (rest : List (List String × ByteArray))
    (noText : String.fromUTF8? f.2 = none) :
    c.addFiles ((texts.map encoded ++ f :: rest).map fun f => (joined f.1, f.2)) =
      (c.addTexts texts, .error (joined f.1)) := by
  rw [List.map_append, addFiles_encoded, List.map_cons, addFiles, noText]
  rfl

/-! ## Taking in a directory -/

/-- How **taking in** a directory ends: with a text for each of its shader files and their number,
or at a shader file that is no text, with a text for each of those before it. -/
inductive TakesIn (e : DirectoryEntry) (c : Config) : Config × Except String Nat → Prop
  | all {c' : Config} {texts : List (List String × String)}
      (distinct : (texts.map fun t => joined t.1).Nodup)
      (files : ∀ path bytes, e.HasShader path bytes ↔
        ∃ text : String, (path, text) ∈ texts ∧ text.toByteArray = bytes)
      (overridden : Overridden c c' texts) : TakesIn e c (c', .ok texts.length)
  | upTo {c' : Config} {texts : List (List String × String)} {path : List String}
      {bytes : ByteArray} (file : e.HasShader path bytes)
      (noText : ∀ text : String, text.toByteArray ≠ bytes)
      (distinct : (texts.map fun t => joined t.1).Nodup)
      (files : ∀ other bytes, e.HasShader other bytes ∧ Precedes other path ↔
        ∃ text : String, (other, text) ∈ texts ∧ text.toByteArray = bytes)
      (overridden : Overridden c c' texts) : TakesIn e c (c', .error (joined path))

theorem mem_map_encoded_iff {path : List String} {bytes : ByteArray} :
    (path, bytes) ∈ texts.map encoded ↔
      ∃ text : String, (path, text) ∈ texts ∧ text.toByteArray = bytes := by
  rw [List.mem_map]
  constructor
  · rintro ⟨t, ht, h⟩
    obtain ⟨rfl, rfl⟩ := Prod.mk.inj h
    exact ⟨t.2, ht, rfl⟩
  · rintro ⟨text, ht, rfl⟩
    exact ⟨_, ht, rfl⟩

/-- Texts of shader files in order have different joined names. -/
theorem nodup_joined {e : DirectoryEntry} (h : WellNamed e)
    (shaders : ∀ f ∈ texts.map encoded, e.HasShader f.1 f.2)
    (order : (texts.map encoded).Pairwise fun f g => Precedes f.1 g.1) :
    (texts.map fun t => joined t.1).Nodup := by
  rw [List.nodup_iff_pairwise_ne, List.pairwise_map]
  refine (List.pairwise_map.1 order).imp_of_mem fun {t u} ht hu precedes same => ?_
  have inj := h.joined_inj_of_hasShader (shaders _ (List.mem_map_of_mem ht))
    (shaders _ (List.mem_map_of_mem hu)) same
  exact not_precedes_self _ (inj ▸ precedes)

/-- **Taking in a directory overrides the texts of a configuration by exactly one for each of its
shader files, or for each of those before the first that is no text.** -/
theorem takesIn_addDirectory {entries : List (String × DirectoryEntry)}
    (h : WellNamed (.directory entries)) (c : Config) :
    TakesIn (.directory entries) c (c.addDirectory (some (.directory entries))) := by
  have inOrder := h.inOrder_sorted
  have order := pairwise_shaders inOrder
  have isShader {f : List String × ByteArray} :
      f ∈ shaders (DirectoryEntry.directory entries).sorted ↔
        HasShader (.directory entries) f.1 f.2 := mem_shaders_sorted_iff
  have addDirectory_eq : c.addDirectory (some (.directory entries)) =
      c.addFiles ((shaders (DirectoryEntry.directory entries).sorted).map
        fun f => (joined f.1, f.2)) :=
    congrArg c.addFiles (shaderFiles_eq inOrder (List.forall_mem_nil _) "")
  rw [addDirectory_eq]
  -- both cases read what is taken in off one list, in the order in which the walk comes to the files
  rcases texts_or_first (shaders (DirectoryEntry.directory entries).sorted) with
    ⟨texts, hfiles⟩ | ⟨texts, f, rest, hfiles, noText⟩ <;> rw [hfiles] at order isShader ⊢
  · have distinct := nodup_joined h (fun f hf => isShader.1 hf) order
    rw [addFiles_of_texts]
    exact .all distinct (fun _ _ => isShader.symm.trans mem_map_encoded_iff)
      (overridden_addTexts c distinct)
  · have distinct := nodup_joined h (fun f hf => isShader.1 (List.mem_append_left _ hf))
      (List.pairwise_append.1 order).1
    rw [addFiles_of_first c texts rest noText]
    refine .upTo (isShader.1 (List.mem_append_right _ List.mem_cons_self)) (fun text htext => ?_)
      distinct (fun other bytes => ?_) (overridden_addTexts c distinct)
    · rw [fromUTF8?_eq_some_iff.2 htext] at noText
      cases noText
    · rw [← mem_map_encoded_iff, ← mem_before_iff order, isShader]

/-- A directory that has the name of a shader file, with a text in it, and a file that holds none. -/
theorem takesIn_addDirectory_apply :
    let entries := [("lib.glsl", DirectoryEntry.directory [("b.inc", .file "b".toByteArray)]),
      ("a.frag", .file ⟨#[0xff]⟩)]
    WellNamed (.directory entries) ∧
      TakesIn (.directory entries) default (default.addDirectory (some (.directory entries))) := by
  intro entries
  have wellNamed : WellNamed (.directory entries) := by
    refine .directory (by decide) (by decide) ?_
    rw [List.forall_mem_cons, List.forall_mem_singleton]
    refine ⟨.directory (by decide) (by decide) ?_, .file _⟩
    rw [List.forall_mem_singleton]
    exact .file _
  exact ⟨wellNamed, takesIn_addDirectory wellNamed default⟩

end ShaderPass.Config
