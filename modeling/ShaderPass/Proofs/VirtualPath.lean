import Mathlib.Data.List.Basic
import ShaderPass.VirtualPath

/-!
# Proofs/VirtualPath — a path in normal form stands for itself

    ./lib\../a.glsl ──meaning──▸ [a.glsl] ──intercalate──▸ a.glsl ──meaning──▸ [a.glsl]

A **plain** segment is one that a meaning can hold: it is not empty, not `.` or `..`, and holds no
separator.  Plain segments with `/` between them mean just themselves (`meaning_intercalate`), so a
normal form is its own normal form (`normalize_normalize`), and a path read from a directory depends
on what the directory means alone (`join_normalize`).
-/

namespace ShaderPass.VirtualPath

variable {path path' segment : List Char} {ss before : List (List Char)}

/-! ## Segments -/

/-- A segment that is not passed over, undoes nothing, and is one segment. -/
structure IsPlain (segment : List Char) : Prop where
  nonempty : segment ≠ []
  noDot : segment ≠ ['.']
  noDots : segment ≠ ['.', '.']
  whole : ∀ c ∈ segment, isSeparator c = false

theorem segments_ne_nil : ∀ path : List Char, segments path ≠ []
  | [] => List.cons_ne_nil _ _
  | c :: path => by
    rw [segments]
    split
    next => exact List.cons_ne_nil _ _
    next =>
      split
      next => exact List.cons_ne_nil _ _
      next => exact List.cons_ne_nil _ _

theorem segments_cons {c : Char} (hc : isSeparator c = false) {s : List Char}
    (h : segments path = s :: ss) : segments (c :: path) = (c :: s) :: ss := by
  rw [segments, hc, if_neg Bool.false_ne_true, h]

/-- A text without separators is one segment. -/
theorem segments_of_whole (h : ∀ c ∈ segment, isSeparator c = false) :
    segments segment = [segment] := by
  induction segment with
  | nil => rfl
  | cons c cs ih =>
    have ⟨hc, hcs⟩ := List.forall_mem_cons.1 h
    exact segments_cons hc (ih hcs)

/-- A separator ends a segment. -/
theorem segments_append (path path' : List Char) :
    segments (path ++ '/' :: path') = segments path ++ segments path' := by
  induction path with
  | nil => rfl
  | cons c path ih =>
    rw [List.cons_append]
    cases hc : isSeparator c with
    | true => rw [segments, segments, hc, if_pos rfl, if_pos rfl, ih, List.cons_append]
    | false =>
      obtain ⟨s, ss, hs⟩ := List.exists_cons_of_ne_nil (segments_ne_nil path)
      rw [hs, List.cons_append] at ih
      rw [segments_cons hc ih, segments_cons hc hs, List.cons_append]

/-- No segment holds a separator. -/
theorem whole_of_mem_segments (h : segment ∈ segments path) :
    ∀ c ∈ segment, isSeparator c = false := by
  induction path generalizing segment with
  | nil =>
    obtain rfl := List.mem_singleton.1 h
    exact List.forall_mem_nil _
  | cons c path ih =>
    cases hc : isSeparator c with
    | true =>
      rw [segments, hc, if_pos rfl] at h
      rcases List.mem_cons.1 h with rfl | h
      · exact List.forall_mem_nil _
      · exact ih h
    | false =>
      obtain ⟨s, ss, hs⟩ := List.exists_cons_of_ne_nil (segments_ne_nil path)
      rw [segments_cons hc hs] at h
      rcases List.mem_cons.1 h with rfl | h
      · exact List.forall_mem_cons.2 ⟨hc, ih (hs ▸ List.mem_cons_self)⟩
      · exact ih (hs ▸ List.mem_cons_of_mem s h)

/-- Segments with slashes between them are the segments of the whole. -/
theorem segments_intercalate (hne : ss ≠ []) (h : ∀ s ∈ ss, ∀ c ∈ s, isSeparator c = false) :
    segments (List.intercalate ['/'] ss) = ss := by
  induction ss with
  | nil => exact absurd rfl hne
  | cons s ss ih =>
    have ⟨hs, hss⟩ := List.forall_mem_cons.1 h
    cases ss with
    | nil =>
      rw [List.intercalate_singleton]
      exact segments_of_whole hs
    | cons t ss =>
      rw [List.intercalate_cons_cons, List.append_assoc, List.singleton_append, segments_append,
        segments_of_whole hs, ih (List.cons_ne_nil _ _) hss, List.singleton_append]

/-! ## Meanings -/

theorem resolve_of_isPlain (h : IsPlain segment) : resolve before segment = segment :: before := by
  rw [resolve, if_neg (not_or.2 ⟨h.nonempty, h.noDot⟩), if_neg h.noDots]

theorem foldl_resolve_of_isPlain (h : ∀ s ∈ ss, IsPlain s) :
    ss.foldl resolve before = ss.reverse ++ before := by
  induction ss generalizing before with
  | nil => rfl
  | cons s ss ih =>
    have ⟨hs, hss⟩ := List.forall_mem_cons.1 h
    rw [List.foldl_cons, resolve_of_isPlain hs, ih hss, List.reverse_cons, List.append_assoc,
      List.singleton_append]

/-- What is resolved is plain where what came before is. -/
theorem isPlain_foldl_resolve (hbefore : ∀ s ∈ before, IsPlain s)
    (hss : ∀ s ∈ ss, ∀ c ∈ s, isSeparator c = false) :
    ∀ s ∈ ss.foldl resolve before, IsPlain s := by
  induction ss generalizing before with
  | nil => exact hbefore
  | cons s ss ih =>
    have ⟨hs, hss⟩ := List.forall_mem_cons.1 hss
    refine ih ?_ hss
    rw [resolve]
    split
    next => exact hbefore
    next hempty =>
      split
      next => exact fun t ht => hbefore t (List.mem_of_mem_tail ht)
      next hdots =>
        have ⟨hne, hdot⟩ := not_or.1 hempty
        exact List.forall_mem_cons.2 ⟨⟨hne, hdot, hdots, hs⟩, hbefore⟩

/-- **A path means plain segments.** -/
theorem isPlain_of_mem_meaning (h : segment ∈ meaning path) : IsPlain segment :=
  isPlain_foldl_resolve (List.forall_mem_nil _) (fun _ => whole_of_mem_segments) segment
    (List.mem_reverse.1 h)

/-- **Plain segments with slashes between them mean themselves.** -/
theorem meaning_intercalate (h : ∀ s ∈ ss, IsPlain s) :
    meaning (List.intercalate ['/'] ss) = ss := by
  by_cases hne : ss = []
  · rw [hne]
    rfl
  · rw [meaning, segments_intercalate hne fun s hs => (h s hs).whole, foldl_resolve_of_isPlain h,
      List.append_nil, List.reverse_reverse]

/-- The segments of one path after those of another mean what they mean after its meaning. -/
theorem meaning_append (path path' : List Char) : meaning (path ++ '/' :: path') =
    ((segments path').foldl resolve (meaning path).reverse).reverse := by
  rw [meaning, segments_append, List.foldl_append, meaning, List.reverse_reverse]

/-! ## Normal forms -/

/-- **A normal form means what the path does.** -/
theorem meaning_normalize (path : String) : meaning (normalize path).toList = meaning path.toList := by
  rw [normalize, String.toList_ofList]
  exact meaning_intercalate fun _ => isPlain_of_mem_meaning

/-- Paths that mean the same have one normal form. -/
theorem normalize_congr {path path' : String} (h : meaning path.toList = meaning path'.toList) :
    normalize path = normalize path' := by rw [normalize, normalize, h]

/-- **A normal form is its own normal form.** -/
theorem normalize_normalize (path : String) : normalize (normalize path) = normalize path :=
  normalize_congr (meaning_normalize path)

theorem normalize_append (directory path : String) :
    normalize (normalize directory ++ "/" ++ path) = normalize (directory ++ "/" ++ path) := by
  have toList (d : String) : (d ++ "/" ++ path).toList = d.toList ++ '/' :: path.toList := by
    rw [String.toList_append, String.toList_append, List.append_assoc]
    rfl
  refine normalize_congr ?_
  rw [toList, toList, meaning_append, meaning_append, meaning_normalize]

/-- Reading a path from a directory without a name is reading it from the root. -/
theorem normalize_of_meaning_eq_nil {directory : String} (h : meaning directory.toList = [])
    (path : String) : normalize (directory ++ "/" ++ path) = normalize path := by
  refine normalize_congr ?_
  rw [String.toList_append, String.toList_append, List.append_assoc]
  show meaning (directory.toList ++ '/' :: path.toList) = _
  rw [meaning_append, h]
  rfl

/-- **A path read from a directory depends on the normal form of the directory alone.** -/
theorem join_normalize (directory path : String) :
    join (normalize directory) path = join directory path := by
  unfold join
  by_cases hroot : path.toList.head? = some '/'
  · rw [if_pos (.inl hroot), if_pos (.inl hroot)]
  by_cases hempty : directory = ""
  · rw [hempty]
    rfl
  rw [if_neg (not_or.2 ⟨hroot, hempty⟩)]
  split
  next h =>
    have hnormal : normalize directory = "" := h.resolve_left hroot
    refine (normalize_of_meaning_eq_nil ?_ path).symm
    rw [← meaning_normalize, hnormal]
    rfl
  next => exact normalize_append directory path

end ShaderPass.VirtualPath
