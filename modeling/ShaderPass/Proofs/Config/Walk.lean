import Mathlib.Data.List.Nodup
import Mathlib.Data.List.TakeDrop
import Mathlib.Data.List.TakeWhile
import ShaderPass.Config.Directory
import ShaderPass.Proofs.Text.Order

/-!
# Proofs/Config/Walk — the files of a directory, and which comes first

    lib/                        common.glsl     [common.glsl]
      light.inc                 ggx.frag        [lib, brdf, ggx.frag]
      brdf/                     light.inc       [lib, light.inc]
        ggx.frag
    common.glsl

A file is reached by a list of names.  Walking depth first, with the entries of each directory in
the order of their names, comes to the files in the order of these lists, each name compared by its
bytes (`pairwise_files`).  The shader files among them are told by the last name (`shaderFiles_eq`),
and as no name has a slash in it, the names joined by slashes tell all of them apart
(`WellNamed.joined_inj_of_hasShader`).
-/

namespace ShaderPass

namespace DirectoryEntry

variable {e : DirectoryEntry} {entries : List (String × DirectoryEntry)} {bytes : ByteArray}
  {path : List String} {name : String}

/-- What holds of files, and of directories if it holds of their entries, holds of all entries. -/
theorem induction {motive : DirectoryEntry → Prop} (file : ∀ bytes, motive (.file bytes))
    (directory : ∀ entries, (∀ x ∈ entries, motive x.2) → motive (.directory entries)) :
    ∀ e, motive e
  | .file bytes => file bytes
  | .directory entries => directory entries fun x hx =>
      have smaller : sizeOf x.2 < 1 + sizeOf entries := by
        have := List.sizeOf_lt_of_mem hx
        have : sizeOf x = 1 + sizeOf x.1 + sizeOf x.2 := rfl
        omega
      induction file directory x.2
termination_by e => sizeOf e

/-! ## Files and the names that lead to them -/

/-- The **files** of an entry, each under the names that lead to it. -/
inductive FileAt : DirectoryEntry → List String → ByteArray → Prop
  | here (bytes : ByteArray) : FileAt (.file bytes) [] bytes
  | inside {entries : List (String × DirectoryEntry)} {x : String × DirectoryEntry}
      {path : List String} {bytes : ByteArray} (entry : x ∈ entries)
      (file : FileAt x.2 path bytes) : FileAt (.directory entries) (x.1 :: path) bytes

/-- Each directory has different names for its entries, none of them empty or with a slash in it. -/
inductive WellNamed : DirectoryEntry → Prop
  | file (bytes : ByteArray) : WellNamed (.file bytes)
  | directory {entries : List (String × DirectoryEntry)} (distinct : (entries.map (·.1)).Nodup)
      (names : ∀ x ∈ entries, x.1 ≠ "" ∧ '/' ∉ x.1.toList) (below : ∀ x ∈ entries, WellNamed x.2) :
      WellNamed (.directory entries)

/-- Each directory has its entries in the ascending order of their names, which are not empty. -/
inductive InOrder : DirectoryEntry → Prop
  | file (bytes : ByteArray) : InOrder (.file bytes)
  | directory {entries : List (String × DirectoryEntry)} (ascending : entries.Pairwise (·.1 < ·.1))
      (named : ∀ x ∈ entries, x.1 ≠ "") (below : ∀ x ∈ entries, InOrder x.2) :
      InOrder (.directory entries)

theorem fileAt_file_iff {other : ByteArray} :
    FileAt (.file bytes) path other ↔ path = [] ∧ other = bytes :=
  ⟨fun | .here _ => ⟨rfl, rfl⟩, fun ⟨hp, hb⟩ => hp ▸ hb ▸ .here bytes⟩

theorem fileAt_directory_iff : FileAt (.directory entries) path bytes ↔
    ∃ x ∈ entries, ∃ rest, path = x.1 :: rest ∧ FileAt x.2 rest bytes := by
  constructor
  · rintro ⟨⟩
    exact ⟨_, ‹_›, _, rfl, ‹_›⟩
  · rintro ⟨x, hx, rest, rfl, file⟩
    exact .inside hx file

/-- No name on the way to a file is empty or has a slash in it. -/
theorem WellNamed.of_fileAt (h : WellNamed e) (file : FileAt e path bytes) :
    ∀ name ∈ path, name ≠ "" ∧ '/' ∉ name.toList := by
  induction file with
  | here => simp
  | inside hx _ ih =>
    cases h with
    | directory _ names below => exact List.forall_mem_cons.2 ⟨names _ hx, ih (below _ hx)⟩

/-! ## Putting the entries in order -/

theorem sorted_directory (entries : List (String × DirectoryEntry)) :
    sorted (.directory entries) =
      .directory (sortByName (entries.map fun x => (x.1, x.2.sorted))) := by
  have sortedEntries_eq : sortedEntries entries = entries.map fun x => (x.1, x.2.sorted) := by
    induction entries with
    | nil => rfl
    | cons x es ih => rw [sortedEntries, ih, List.map_cons]
  rw [sorted, sortedEntries_eq]

theorem mem_sortByName {x : String × DirectoryEntry} : x ∈ sortByName entries ↔ x ∈ entries :=
  (List.mergeSort_perm _ _).mem_iff

/-- Different names in order are in ascending order. -/
theorem pairwise_sortByName (h : (entries.map (·.1)).Nodup) :
    (sortByName entries).Pairwise (·.1 < ·.1) := by
  have distinct : ((sortByName entries).map (·.1)).Nodup :=
    ((List.mergeSort_perm entries _).map (·.1)).nodup_iff.2 h
  have trans (x y z : String × DirectoryEntry) (hxy : decide (x.1 ≤ y.1) = true)
      (hyz : decide (y.1 ≤ z.1) = true) : decide (x.1 ≤ z.1) = true :=
    decide_eq_true (String.le_trans (of_decide_eq_true hxy) (of_decide_eq_true hyz))
  have total (x y : String × DirectoryEntry) :
      (decide (x.1 ≤ y.1) || decide (y.1 ≤ x.1)) = true := by
    simpa using String.le_total x.1 y.1
  have inOrder := List.pairwise_mergeSort trans total entries
  refine (inOrder.and (List.pairwise_map.1 distinct)).imp fun {x y} ⟨hle, hne⟩ => ?_
  exact String.not_le.1 fun hge => hne (String.le_antisymm (of_decide_eq_true hle) hge)

theorem fileAt_sorted_iff : FileAt e.sorted path bytes ↔ FileAt e path bytes := by
  induction e using DirectoryEntry.induction generalizing path with
  | file => rw [sorted]
  | directory entries ih =>
    rw [sorted_directory, fileAt_directory_iff, fileAt_directory_iff]
    constructor
    · rintro ⟨y, hy, rest, rfl, file⟩
      obtain ⟨x, hx, rfl⟩ := List.mem_map.1 (mem_sortByName.1 hy)
      exact ⟨x, hx, rest, rfl, (ih x hx).1 file⟩
    · rintro ⟨x, hx, rest, rfl, file⟩
      exact ⟨_, mem_sortByName.2 (List.mem_map_of_mem hx), rest, rfl, (ih x hx).2 file⟩

/-- Where the names in each directory are different, sorting puts them in ascending order. -/
theorem WellNamed.inOrder_sorted (h : WellNamed e) : InOrder e.sorted := by
  induction h with
  | file bytes => exact .file bytes
  | @directory entries distinct names _ ih =>
    rw [sorted_directory]
    refine .directory (pairwise_sortByName ?_) (fun y hy => ?_) fun y hy => ?_
    · rwa [List.map_map]
    all_goals obtain ⟨x, hx, rfl⟩ := List.mem_map.1 (mem_sortByName.1 hy)
    · exact (names x hx).1
    · exact ih x hx

/-! ## The files in the order of a walk -/

mutual

/-- All files of an entry in the order in which they stand, each under the names that lead to it. -/
def files : DirectoryEntry → List (List String × ByteArray)
  | .file bytes => [([], bytes)]
  | .directory entries => filesIn entries

/-- All files of the entries of a directory. -/
def filesIn : List (String × DirectoryEntry) → List (List String × ByteArray)
  | [] => []
  | (name, e) :: es => (files e).map (fun f => (name :: f.1, f.2)) ++ filesIn es

end

theorem files_directory (entries : List (String × DirectoryEntry)) :
    files (.directory entries) =
      entries.flatMap fun x => (files x.2).map fun f => (x.1 :: f.1, f.2) := by
  rw [files]
  induction entries with
  | nil => rfl
  | cons x es ih => rw [filesIn, ih, List.flatMap_cons]

theorem mem_files_iff : (path, bytes) ∈ files e ↔ FileAt e path bytes := by
  induction e using DirectoryEntry.induction generalizing path with
  | file => rw [files, List.mem_singleton, Prod.mk.injEq, fileAt_file_iff]
  | directory entries ih =>
    rw [files_directory, List.mem_flatMap, fileAt_directory_iff]
    refine exists_congr fun x => and_congr_right fun hx => ?_
    rw [List.mem_map]
    constructor
    · rintro ⟨f, hf, h⟩
      obtain ⟨rfl, rfl⟩ := Prod.mk.inj h
      exact ⟨f.1, rfl, (ih x hx).1 hf⟩
    · rintro ⟨rest, rfl, file⟩
      exact ⟨_, (ih x hx).2 file, rfl⟩

/-- The files under some names **precede** those under others: at the first name that differs, its
bytes are smaller. -/
def Precedes (path other : List String) : Prop := path.map Text.bytes < other.map Text.bytes

theorem precedes_cons_iff {other : List String} :
    Precedes (name :: path) (name :: other) ↔ Precedes path other := by
  simp [Precedes]

theorem precedes_of_lt {other : String} {rest : List String} (h : name < other) :
    Precedes (name :: path) (other :: rest) := by
  rw [Precedes, List.map_cons, List.map_cons, List.cons_lt_cons_iff]
  exact .inl (Text.lt_iff_bytes_lt.1 h)

theorem not_precedes_self (path : List String) : ¬Precedes path path := List.lt_irrefl _

theorem Precedes.asymm {other : List String} (h : Precedes path other) : ¬Precedes other path :=
  List.lt_asymm h

/-- **A walk comes to the files of a directory in the order of the names that lead to them.** -/
theorem pairwise_files (h : InOrder e) : (files e).Pairwise fun f g => Precedes f.1 g.1 := by
  induction h with
  | file => rw [files]; exact List.pairwise_singleton _ _
  | @directory entries ascending _ _ ih =>
    rw [files_directory, List.pairwise_flatMap]
    refine ⟨fun x hx => ?_, ascending.imp fun {x y} hxy f hf g hg => ?_⟩
    · exact List.pairwise_map.2 ((ih x hx).imp precedes_cons_iff.2)
    · obtain ⟨f, -, rfl⟩ := List.mem_map.1 hf
      obtain ⟨g, -, rfl⟩ := List.mem_map.1 hg
      exact precedes_of_lt hxy

/-! ## Names of shader files -/

/-- What stands before the first of a character, and that it is followed by the character. -/
theorem span_ne_eq_iff {cs before rest : List Char} {c d : Char} :
    cs.span (· != c) = (before, d :: rest) ↔ cs = before ++ d :: rest ∧ d = c ∧ c ∉ before := by
  rw [List.span_eq_takeWhile_dropWhile]
  constructor
  · intro h
    obtain ⟨htake, hdrop⟩ := Prod.mk.inj h
    have stopped := List.head?_dropWhile_not (· != c) cs
    rw [hdrop] at stopped
    refine ⟨?_, by simpa using stopped, fun hc => ?_⟩
    · rw [← htake, ← hdrop, List.takeWhile_append_dropWhile]
    · have unequal : (c != c) = true := List.mem_takeWhile_imp (p := (· != c)) (htake ▸ hc)
      exact bne_iff_ne.1 unequal rfl
  · rintro ⟨rfl, rfl, hd⟩
    have unequal : ∀ b ∈ before, (b != d) = true := fun b hb => bne_iff_ne.2 fun he => hd (he ▸ hb)
    rw [List.takeWhile_append_of_pos unequal, List.dropWhile_append_of_pos unequal]
    simp

/-- An extension is what comes after the last dot, unless nothing comes before that dot. -/
theorem extension?_eq_some_iff {ext : String} : extension? name = some ext ↔
    ∃ stem, name = stem ++ "." ++ ext ∧ stem ≠ "" ∧ '.' ∉ ext.toList := by
  constructor
  · intro h
    rw [extension?] at h
    split at h
    next after dot c cs hspan =>
      obtain ⟨hname, rfl, hdot⟩ := span_ne_eq_iff.1 hspan
      obtain rfl := Option.some.inj h
      refine ⟨String.ofList (c :: cs).reverse, ?_, by simp, by simpa using hdot⟩
      rw [← String.toList_inj, ← List.reverse_reverse name.toList, hname]
      simp
    next => cases h
  · rintro ⟨stem, rfl, hstem, hdot⟩
    have nonempty : stem.toList.reverse ≠ [] := by simpa using hstem
    obtain ⟨c, cs, hcs⟩ := List.exists_cons_of_ne_nil nonempty
    have hspan : (stem ++ "." ++ ext).toList.reverse.span (· != '.') =
        (ext.toList.reverse, '.' :: c :: cs) :=
      span_ne_eq_iff.2 ⟨by simp [hcs], rfl, by simpa using hdot⟩
    rw [extension?, hspan]
    simp

/-- A file is a **shader** by the last of the names that lead to it: an extension for shaders after
its last dot, and something before the dot. -/
def IsShaderPath (path : List String) : Prop := ∃ directories stem ext,
  path = directories ++ [stem ++ "." ++ ext] ∧ stem ≠ "" ∧ ext ∈ shaderExtensions

theorem isShaderName_iff : isShaderName name = true ↔
    ∃ stem ext, name = stem ++ "." ++ ext ∧ stem ≠ "" ∧ ext ∈ shaderExtensions := by
  have noDot : ∀ ext ∈ shaderExtensions, '.' ∉ ext.toList := by decide
  rw [isShaderName, Option.any_eq_true]
  constructor
  · rintro ⟨ext, hname, hext⟩
    obtain ⟨stem, rfl, hstem, -⟩ := extension?_eq_some_iff.1 hname
    exact ⟨stem, ext, rfl, hstem, List.contains_iff_mem.1 hext⟩
  · rintro ⟨stem, ext, rfl, hstem, hext⟩
    exact ⟨ext, extension?_eq_some_iff.2 ⟨stem, rfl, hstem, noDot ext hext⟩,
      List.contains_iff_mem.2 hext⟩

theorem isShaderPath_iff : IsShaderPath path ↔ isShaderName (path.getLastD "") = true := by
  rw [isShaderName_iff]
  constructor
  · rintro ⟨directories, stem, ext, rfl, hstem, hext⟩
    exact ⟨stem, ext, by simp, hstem, hext⟩
  · rintro ⟨stem, ext, hlast, hstem, hext⟩
    rcases List.eq_nil_or_concat path with rfl | ⟨directories, last, rfl⟩
    · simp at hlast
    · exact ⟨directories, stem, ext, by simpa using hlast, hstem, hext⟩

/-! ## Shader files -/

/-- Names joined by slashes. -/
def joined (path : List String) : String := "/".intercalate path

/-- Names without slashes can be told from what they are joined to. -/
theorem joined_inj {other : List String} (hpath : ∀ name ∈ path, '/' ∉ name.toList)
    (hother : ∀ name ∈ other, '/' ∉ name.toList) (path_ne : path ≠ []) (other_ne : other ≠ [])
    (h : joined path = joined other) : path = other := by
  have split {names : List String} (hnames : ∀ name ∈ names, '/' ∉ name.toList) (ne : names ≠ []) :
      (joined names).toList.splitOn '/' = names.map String.toList := by
    rw [joined, String.toList_intercalate]
    refine List.splitOn_intercalate '/' (fun cs hcs => ?_) (by simpa using ne)
    obtain ⟨name, hname, rfl⟩ := List.mem_map.1 hcs
    exact hnames name hname
  have lists : path.map String.toList = other.map String.toList := by
    rw [← split hpath path_ne, h, split hother other_ne]
  exact List.map_injective_iff.2 (fun _ _ => String.toList_injective) lists

theorem joined_ne_empty (h : ∀ name ∈ path, name ≠ "") (hpath : path ≠ []) : joined path ≠ "" := by
  obtain ⟨name, rest, rfl⟩ := List.exists_cons_of_ne_nil hpath
  have hname : name ≠ "" := h name List.mem_cons_self
  cases rest <;> simp [joined, hname]

theorem pathIn_joined (h : ∀ name ∈ path, name ≠ "") (name : String) :
    pathIn (joined path) name = joined (path ++ [name]) := by
  by_cases hpath : path = []
  · rw [hpath]
    rfl
  · rw [pathIn, if_neg (joined_ne_empty h hpath), joined, joined,
      String.intercalate_append_of_ne_nil hpath (List.cons_ne_nil _ _),
      String.intercalate_singleton]

theorem shaderFilesIn_eq (directory : String) (entries : List (String × DirectoryEntry)) :
    shaderFilesIn directory entries =
      entries.flatMap fun x => shaderFiles (pathIn directory x.1) x.1 x.2 := by
  induction entries with
  | nil => rfl
  | cons x es ih => rw [shaderFilesIn, ih, List.flatMap_cons]

/-- The shader files are those of all files that the last name tells to be shaders. -/
theorem shaderFiles_eq (h : InOrder e) (hpath : ∀ name ∈ path, name ≠ "") (name : String) :
    shaderFiles (joined path) name e =
      ((files e).filter fun f => isShaderName (f.1.getLastD name)).map
        fun f => (joined (path ++ f.1), f.2) := by
  induction h generalizing path name with
  | file bytes =>
    rw [files, shaderFiles, List.filter_singleton]
    by_cases hname : isShaderName name = true <;> simp [hname]
  | @directory entries _ named _ ih =>
    rw [shaderFiles, shaderFilesIn_eq, files_directory, List.filter_flatMap, List.map_flatMap]
    refine List.flatMap_congr fun x hx => ?_
    -- below an entry the path to its directory is longer by the name of the entry
    have hpath' : ∀ name ∈ path ++ [x.1], name ≠ "" :=
      List.forall_mem_append.2 ⟨hpath, List.forall_mem_singleton.2 (named x hx)⟩
    rw [pathIn_joined hpath, ih x hx hpath' x.1, List.filter_map, List.map_map]
    simp only [Function.comp_def, List.getLastD_cons, List.append_assoc, List.singleton_append]

/-- The **shader files** of an entry. -/
structure HasShader (e : DirectoryEntry) (path : List String) (bytes : ByteArray) : Prop where
  file : FileAt e path bytes
  shader : IsShaderPath path

/-- The shader files of an entry in the order in which they stand, under the names that lead to
them. -/
def shaders (e : DirectoryEntry) : List (List String × ByteArray) :=
  (files e).filter fun f => isShaderName (f.1.getLastD "")

theorem mem_shaders_sorted_iff : (path, bytes) ∈ shaders e.sorted ↔ HasShader e path bytes := by
  rw [shaders, List.mem_filter, mem_files_iff, fileAt_sorted_iff, ← isShaderPath_iff]
  exact ⟨fun h => ⟨h.1, h.2⟩, fun h => ⟨h.file, h.shader⟩⟩

theorem pairwise_shaders (h : InOrder e) : (shaders e).Pairwise fun f g => Precedes f.1 g.1 :=
  (pairwise_files h).filter _

/-- Two shader files are under different keys. -/
theorem WellNamed.joined_inj_of_hasShader (h : WellNamed e) {other : List String}
    {bytes' : ByteArray} (hpath : HasShader e path bytes) (hother : HasShader e other bytes')
    (same : joined path = joined other) : path = other := by
  have nonempty {path : List String} (h : IsShaderPath path) : path ≠ [] := by
    obtain ⟨directories, stem, ext, rfl, -⟩ := h
    exact List.concat_ne_nil _ _
  exact joined_inj (fun name hname => (h.of_fileAt hpath.file name hname).2)
    (fun name hname => (h.of_fileAt hother.file name hname).2) (nonempty hpath.shader)
    (nonempty hother.shader) same

/-- In a list in the order of a relation, what is related to a member stands before it. -/
theorem mem_before_iff {f g : List String × ByteArray}
    {before after : List (List String × ByteArray)}
    (h : (before ++ f :: after).Pairwise fun f g => Precedes f.1 g.1) :
    g ∈ before ++ f :: after ∧ Precedes g.1 f.1 ↔ g ∈ before := by
  obtain ⟨-, rest, split⟩ := List.pairwise_append.1 h
  constructor
  · rintro ⟨hg, hlt⟩
    rcases List.mem_append.1 hg with hg | hg
    · exact hg
    · rcases List.mem_cons.1 hg with rfl | hg
      · exact absurd hlt (not_precedes_self _)
      · exact absurd hlt (List.rel_of_pairwise_cons rest hg).asymm
  · exact fun hg => ⟨List.mem_append_left _ hg, split g hg f List.mem_cons_self⟩

end DirectoryEntry

end ShaderPass
