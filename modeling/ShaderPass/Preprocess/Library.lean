import ShaderPass.VirtualPath

/-!
# Preprocess/Library — the texts that can be spliced in

A **library** holds texts under paths in normal form.  Texts are taken in one after the other, and
of two whose paths have the same normal form the later one counts.  A path in a directive is tried
from the directory of the unit it stands in, from the base directory, and from the root.
-/

namespace ShaderPass.Preprocess

/-- Texts under paths in normal form; of two texts under one path the first counts. -/
structure Library where
  entries : List (String × String)
  deriving DecidableEq, Repr, Inhabited

namespace Library

/-- The library without texts. -/
def empty : Library := ⟨[]⟩

/-- The library of some texts under any paths, taken in in order. -/
def ofTexts (texts : List (String × String)) : Library :=
  ⟨(texts.map fun (path, text) => (VirtualPath.normalize path, text)).reverse⟩

/-- The text under a path. -/
def text? (l : Library) (path : String) : Option String := l.entries.lookup path

/-- Whether there is a text under a path. -/
def contains (l : Library) (path : String) : Bool := (l.text? path).isSome

/-- The paths that a path in a directive may mean, in the order in which they are tried. -/
def candidates (directory basePath path : String) : List String :=
  [VirtualPath.join directory path, VirtualPath.join basePath path, VirtualPath.normalize path]

/-- The path of the text that a path in a directive means. -/
def resolve? (l : Library) (directory basePath path : String) : Option String :=
  (candidates directory basePath path).find? l.contains

/-- The number of texts whose path is not on a chain of paths. -/
def countOff (l : Library) (chain : List String) : Nat :=
  (l.entries.filter (·.1 ∉ chain)).length

/-- Putting the path of a text on a chain it is not on leaves fewer texts off it. -/
theorem countOff_cons_lt {l : Library} {path : String} {chain : List String}
    (h : l.contains path = true) (hc : path ∉ chain) :
    l.countOff (path :: chain) < l.countOff chain := by
  unfold contains text? at h
  unfold countOff
  generalize l.entries = entries at *
  induction entries with
  | nil => simp at h
  | cons e es ih =>
    obtain ⟨p, text⟩ := e
    have hle : (es.filter (·.1 ∉ path :: chain)).length ≤ (es.filter (·.1 ∉ chain)).length := by
      rw [← List.countP_eq_length_filter, ← List.countP_eq_length_filter]
      exact List.countP_mono_left fun q _ hq => by
        simp only [List.mem_cons, not_or, decide_eq_true_eq] at hq ⊢
        exact hq.2
    rw [List.filter_cons, List.filter_cons]
    by_cases hp : p = path
    · subst hp
      simp only [List.mem_cons, true_or, not_true_eq_false, decide_false, Bool.false_eq_true,
        if_false, hc, not_false_eq_true, decide_true, if_true, List.length_cons]
      exact Nat.lt_succ_of_le (by simpa using hle)
    · have hp' : (path == p) = false := beq_false_of_ne fun e => hp e.symm
      rw [List.lookup_cons, hp'] at h
      have ih := ih h
      by_cases hq : p ∈ chain
      · simpa [hp, hq] using ih
      · simpa [hp, hq] using ih

end Library

end ShaderPass.Preprocess
