import Mathlib
import ShaderPass.Proofs.VirtualPath

/-!
# Proofs/VirtualPath/NormalForm — a path in normal form is a name

    lib/./sub\x/../a.glsl ──normalize──▸ lib/sub/a.glsl
                                        parent │ leaf:  lib/sub │ a.glsl ──join──▸ lib/sub/a.glsl

The normal forms are the paths with `/` alone between segments that a path can mean, and with nothing
at either end (`normalize_eq_self_iff`).  So they are names, by which texts and the chain of those that
are being read can be asked for, and a name is put together again from its parent and its leaf
(`normalize_canonical`).
-/

namespace ShaderPass.VirtualPath

variable {path : List Char} {ss : List (List Char)}

/-! ## How normal forms are written -/

/-- Whether a path is written as normal forms are.  The root, which has no segments, is the path without
characters; no segment of another path is empty, and no segment at all is `.` or `..`. -/
structure IsNormal (path : List Char) : Prop where
  nonempty : path ≠ [] → [] ∉ segments path
  noDot : ['.'] ∉ segments path
  noDots : ['.', '.'] ∉ segments path
  noBackslash : '\\' ∉ path
  noSlashFirst : path.head? ≠ some '/'
  noSlashLast : path.getLast? ≠ some '/'

/-- A path that starts with a slash has an empty segment. -/
theorem nil_mem_segments_of_head? (h : path.head? = some '/') : [] ∈ segments path := by
  obtain ⟨path, rfl⟩ := List.head?_eq_some_iff.1 h
  exact List.mem_cons_self

/-- A path that ends with a slash has an empty segment. -/
theorem nil_mem_segments_of_getLast? (h : path.getLast? = some '/') : [] ∈ segments path := by
  obtain ⟨path, rfl⟩ := List.getLast?_eq_some_iff.1 h
  rw [segments_append]
  exact List.mem_append_right _ (List.mem_singleton_self _)

/-- The characters of segments with slashes between them are those of the segments, and slashes. -/
theorem mem_intercalate {c : Char} (h : c ∈ List.intercalate ['/'] ss) :
    c = '/' ∨ ∃ s ∈ ss, c ∈ s := by
  induction ss with
  | nil => cases h
  | cons s ss ih =>
    cases ss with
    | nil => exact .inr ⟨s, List.mem_singleton_self s, by rwa [List.intercalate_singleton] at h⟩
    | cons t ss =>
      rw [List.intercalate_cons_cons, List.mem_append, List.mem_append, List.mem_singleton] at h
      rcases h with (h | rfl) | h
      · exact .inr ⟨s, List.mem_cons_self, h⟩
      · exact .inl rfl
      · exact (ih h).imp_right fun ⟨r, hr, hc⟩ => ⟨r, List.mem_cons_of_mem s hr, hc⟩

/-- A path without backslashes is its segments with slashes between them. -/
theorem intercalate_segments (h : '\\' ∉ path) : List.intercalate ['/'] (segments path) = path := by
  induction path with
  | nil => rfl
  | cons c path ih =>
    have ⟨hc, hpath⟩ := not_or.1 (mt List.mem_cons.2 h)
    obtain ⟨s, ss, hs⟩ := List.exists_cons_of_ne_nil (segments_ne_nil path)
    have ih := ih hpath
    cases hsep : isSeparator c with
    | true =>
      have hslash : c = '/' := by simpa [isSeparator, Ne.symm hc] using hsep
      rw [segments, hsep, if_pos rfl, hs, List.intercalate_cons_cons, ← hs, ih, hslash]
      rfl
    | false =>
      rw [segments_cons hsep hs]
      rw [hs] at ih
      rw [← ih]
      cases ss with
      | nil => rw [List.intercalate_singleton, List.intercalate_singleton]
      | cons t ss => rw [List.intercalate_cons_cons, List.intercalate_cons_cons]; rfl

/-- Plain segments with slashes between them are in normal form. -/
theorem isNormal_intercalate (h : ∀ s ∈ ss, IsPlain s) : IsNormal (List.intercalate ['/'] ss) := by
  by_cases hne : ss = []
  · subst hne
    exact ⟨fun h => absurd rfl h, by decide, by decide, by decide, by decide, by decide⟩
  have hsegments := segments_intercalate hne fun s hs => (h s hs).whole
  have hempty : [] ∉ segments (List.intercalate ['/'] ss) := fun hmem =>
    (h [] (hsegments ▸ hmem)).nonempty rfl
  refine ⟨fun _ => hempty, fun hmem => (h _ (hsegments ▸ hmem)).noDot rfl,
    fun hmem => (h _ (hsegments ▸ hmem)).noDots rfl, fun hmem => ?_,
    fun hhead => hempty (nil_mem_segments_of_head? hhead),
    fun hlast => hempty (nil_mem_segments_of_getLast? hlast)⟩
  rcases mem_intercalate hmem with hslash | ⟨s, hs, hc⟩
  · exact absurd hslash (by decide)
  · exact Bool.false_ne_true (((h s hs).whole _ hc).symm.trans (by decide))

theorem isNormal_normalize (path : String) : IsNormal (normalize path).toList := by
  rw [normalize, String.toList_ofList]
  exact isNormal_intercalate fun _ => isPlain_of_mem_meaning

/-- A path in normal form that is not the root means its segments. -/
theorem IsNormal.meaning_eq (h : IsNormal path) (hne : path ≠ []) : meaning path = segments path := by
  have plain : ∀ s ∈ segments path, IsPlain s := fun s hs =>
    ⟨fun hs' => h.nonempty hne (hs' ▸ hs), fun hs' => h.noDot (hs' ▸ hs),
      fun hs' => h.noDots (hs' ▸ hs), whole_of_mem_segments hs⟩
  rw [meaning, foldl_resolve_of_isPlain plain, List.append_nil, List.reverse_reverse]

/-- **A path is its own normal form just when it is written as normal forms are.** -/
theorem normalize_eq_self_iff {path : String} : normalize path = path ↔ IsNormal path.toList := by
  refine ⟨fun h => h ▸ isNormal_normalize path, fun h => ?_⟩
  by_cases hne : path.toList = []
  · rw [String.toList_eq_nil_iff.1 hne]
    rfl
  · rw [normalize, h.meaning_eq hne, intercalate_segments h.noBackslash, String.ofList_toList]

/-! ## Parents and leaves -/

/-- The part of a path after its last `/`; all of a path without one. -/
def leaf (path : String) : String := String.ofList (path.toList.reverse.takeWhile (· != '/')).reverse

section

variable {name before after : List Char}

theorem ne_slash_of_notMem (h : '/' ∉ name) : ∀ c ∈ name.reverse, (c != '/') = true := fun _ hc =>
  bne_iff_ne.2 fun heq => h (heq ▸ List.mem_reverse.1 hc)

theorem parent_append (h : '/' ∉ after) :
    parent (String.ofList (before ++ '/' :: after)) = String.ofList before := by
  rw [parent, String.toList_ofList, List.reverse_append, List.reverse_cons, List.append_assoc,
    List.dropWhile_append_of_pos (ne_slash_of_notMem h), List.singleton_append,
    List.dropWhile_cons_of_neg (by decide), List.tail_cons, List.reverse_reverse]

theorem leaf_append (h : '/' ∉ after) :
    leaf (String.ofList (before ++ '/' :: after)) = String.ofList after := by
  rw [leaf, String.toList_ofList, List.reverse_append, List.reverse_cons, List.append_assoc,
    List.takeWhile_append_of_pos (ne_slash_of_notMem h), List.singleton_append,
    List.takeWhile_cons_of_neg (by decide), List.append_nil, List.reverse_reverse]

theorem parent_of_notMem (h : '/' ∉ name) : parent (String.ofList name) = "" := by
  rw [parent, String.toList_ofList, List.dropWhile_eq_nil_iff.2 (ne_slash_of_notMem h)]
  rfl

theorem leaf_of_notMem (h : '/' ∉ name) : leaf (String.ofList name) = String.ofList name := by
  rw [leaf, String.toList_ofList, List.takeWhile_eq_self_iff.2 (ne_slash_of_notMem h),
    List.reverse_reverse]

end

/-- A path with a slash has a last one. -/
theorem exists_last_slash (h : '/' ∈ path) :
    ∃ before after, path = before ++ '/' :: after ∧ '/' ∉ after := by
  obtain ⟨after, before, hrev, hafter⟩ := List.eq_append_cons_of_mem (List.mem_reverse.2 h)
  refine ⟨before.reverse, after.reverse, ?_, mt List.mem_reverse.1 hafter⟩
  rw [← List.reverse_reverse path, hrev, List.reverse_append, List.reverse_cons, List.append_assoc,
    List.singleton_append]

/-- **A path in normal form is its leaf, read from its parent.** -/
theorem join_parent_leaf {path : String} (h : normalize path = path) :
    join (parent path) (leaf path) = path := by
  have noSlashFirst := (normalize_eq_self_iff.1 h).noSlashFirst
  obtain ⟨cs, rfl⟩ : ∃ cs, path = String.ofList cs := ⟨_, String.ofList_toList.symm⟩
  rw [String.toList_ofList] at noSlashFirst
  by_cases hslash : '/' ∈ cs
  · obtain ⟨before, after, rfl, hafter⟩ := exists_last_slash hslash
    have hleaf : after.head? ≠ some '/' := mt List.mem_of_mem_head? hafter
    -- a parent without characters would leave the slash at the front of the path
    have hparent : String.ofList before ≠ "" := by
      intro hempty
      rw [String.ofList_eq_empty_iff.1 hempty] at noSlashFirst
      exact noSlashFirst rfl
    have hpath : String.ofList before ++ "/" ++ String.ofList after =
        String.ofList (before ++ '/' :: after) := by
      rw [← List.singleton_append, ← List.append_assoc, String.ofList_append, String.ofList_append]
    rw [parent_append hafter, leaf_append hafter, join, String.toList_ofList,
      if_neg (not_or.2 ⟨hleaf, hparent⟩), hpath, h]
  · rw [parent_of_notMem hslash, leaf_of_notMem hslash, join, if_pos (.inr rfl), h]

/-- **Normal forms are names for what paths mean.**  A normal form has no empty, `.` or `..` segment,
no backslash, and no slash at an end, and these are the paths that are their own normal forms.  The
normal form of a directory stands for it, in a longer path and where a path is read from it; and a
path in normal form is its leaf, read from its parent. -/
theorem normalize_canonical :
    (∀ path, IsNormal (normalize path).toList ∧ normalize (normalize path) = normalize path) ∧
    (∀ directory path,
      normalize (directory ++ "/" ++ path) = normalize (normalize directory ++ "/" ++ path)) ∧
    (∀ directory directory', normalize directory = normalize directory' →
      ∀ path, join directory path = join directory' path) ∧
    ∀ path, (normalize path = path ↔ IsNormal path.toList) ∧
      (normalize path = path → join (parent path) (leaf path) = path) := by
  refine ⟨fun path => ⟨isNormal_normalize path, normalize_normalize path⟩,
    fun directory path => (normalize_append directory path).symm,
    fun directory directory' h path => ?_, fun path => ⟨normalize_eq_self_iff, join_parent_leaf⟩⟩
  rw [← join_normalize directory, h, join_normalize]

/-- Two spellings of one directory, and a path that names a text in a directory of a directory. -/
theorem normalize_canonical_apply :
    (normalize "lib/." = normalize "\\x\\..\\lib" ∧
        join "lib/." "../a" = join "\\x\\..\\lib" "../a") ∧
      normalize "lib/sub/a.glsl" = "lib/sub/a.glsl" ∧
      join (parent "lib/sub/a.glsl") (leaf "lib/sub/a.glsl") = "lib/sub/a.glsl" := by
  obtain ⟨-, -, congr, names⟩ := normalize_canonical
  have alike : normalize "lib/." = normalize "\\x\\..\\lib" := by cbv
  have normal : normalize "lib/sub/a.glsl" = "lib/sub/a.glsl" := by cbv
  exact ⟨⟨alike, congr _ _ alike "../a"⟩, normal, (names _).2 normal⟩

end ShaderPass.VirtualPath
