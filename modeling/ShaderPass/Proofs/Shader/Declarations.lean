import ShaderPass.Proofs.Shader.Layout

/-!
# Proofs/Shader/Declarations — the functions that the shared text of a pass declares

    vec3 light ( vec3 n ) { return pow ( n , 2 ) ; }
    └type      └paren       └───── inside braces ───┘

A run of shared text **declares** a name where the name stands outside of its braces, right after a
type or another name and right before a parenthesis.  The names that reading counts up by the depth of
braces are those (`Grammar.Balanced.mem_declaredFunctions`).  The run itself can be found again from
the stretch that is recorded of it: it is made of the tokens that lie there (`tokensIn_spanOf`).
-/

namespace ShaderPass.Shader

open Grammar
open Source (Span)

variable {R : Rules} {Outside : Token → Prop} {ts us pre post rest : List Token} {name text : String}
variable {o c : Token} {a b depth : Nat}

/-! ## Names outside of braces -/

/-- Whether a run of tokens declares a name as a function. -/
def DeclaresFunction (ts : List Token) (name : String) : Prop :=
  ∃ pre before t paren post, ts = pre ++ before :: t :: paren :: post ∧
    Balanced (fun _ => True) pre ∧ (before.kind = .word .type ∨ before.kind = .identifier) ∧
    t.kind = .identifier ∧ t.text = name ∧ paren.isPunct '(' = true

/-- A first part of a block and what follows it ends before the block, in it, or after it. -/
theorem prefix_block (h : pre <+: o :: (us ++ c :: ts)) : pre = [] ∨
    (∃ inner, pre = o :: inner ∧ inner <+: us) ∨
      ∃ more, pre = o :: (us ++ c :: more) ∧ more <+: ts := by
  obtain rfl | ⟨pre, rfl, htail⟩ := List.prefix_cons_iff.1 h
  · exact .inl rfl
  · obtain hinner | ⟨more, rfl⟩ := List.prefix_or_prefix_of_prefix htail (List.prefix_append _ _)
    · exact .inr (.inl ⟨pre, rfl, hinner⟩)
    · obtain rfl | ⟨more, rfl, hmore⟩ :=
        List.prefix_cons_iff.1 ((List.prefix_append_right_inj us).1 htail)
      · exact .inr (.inl ⟨us, congrArg _ (List.append_nil us), List.prefix_rfl⟩)
      · exact .inr (.inr ⟨more, rfl, hmore⟩)

/-- **A first part of a balanced run closes no more braces than it opens**, and is balanced if it
closes them all. -/
theorem Grammar.Balanced.of_prefix (h : Balanced Outside ts) (hpre : pre <+: ts) :
    depth ≤ pre.foldl braceDepth depth ∧
      (pre.foldl braceDepth depth = depth → Balanced Outside pre) := by
  induction h generalizing pre depth with
  | nil => rw [List.prefix_nil.1 hpre]; exact ⟨Nat.le_refl _, fun _ => .nil⟩
  | token noBrace sort _ ih =>
    obtain rfl | ⟨pre, rfl, hmore⟩ := List.prefix_cons_iff.1 hpre
    · exact ⟨Nat.le_refl _, fun _ => .nil⟩
    · rw [List.foldl_cons, braceDepth_of_noBrace noBrace]
      exact ⟨(ih hmore).1, fun h => .token noBrace sort ((ih hmore).2 h)⟩
  | block opening inside closing _ ihInside ih =>
    obtain rfl | ⟨pre, rfl, hinside⟩ | ⟨pre, rfl, hmore⟩ := prefix_block hpre
    · exact ⟨Nat.le_refl _, fun _ => .nil⟩
    · have hle : depth + 1 ≤ pre.foldl braceDepth (depth + 1) := (ihInside hinside).1
      rw [List.foldl_cons, braceDepth_opening opening]
      exact ⟨Nat.le_of_succ_le hle, fun h => absurd (h ▸ hle) (Nat.not_succ_le_self _)⟩
    · rw [List.foldl_cons, braceDepth_opening opening, List.foldl_append, inside.foldl_braceDepth,
        List.foldl_cons, braceDepth_closing closing, Nat.add_sub_cancel]
      exact ⟨(ih hmore).1, fun h => .block opening inside closing ((ih hmore).2 h)⟩

theorem startsWith_iff {c : Char} :
    startsWith c ts = true ↔ ∃ t rest, ts = t :: rest ∧ t.isPunct c = true := by
  obtain _ | ⟨t, ts⟩ := ts
  · exact ⟨nofun, nofun⟩
  · refine ⟨fun h => ⟨t, ts, rfl, h⟩, fun ⟨_, _, hts, h⟩ => ?_⟩
    obtain ⟨rfl, -⟩ := List.cons.inj hts
    exact h

theorem isTypeName_iff {kind : TokenKind} :
    isTypeName kind = true ↔ kind = .word .type ∨ kind = .identifier := by
  unfold isTypeName
  split
  next => exact iff_of_true rfl (.inl rfl)
  next => exact iff_of_true rfl (.inr rfl)
  next htype hidentifier => exact iff_of_false nofun fun h => h.elim htype hidentifier

theorem braceDepth_of_isTypeName {t : Token} (h : isTypeName t.kind = true) :
    braceDepth depth t = depth := by
  refine braceDepth_of_noBrace (isBrace_eq_false_iff.2 ⟨?_, ?_⟩) <;>
  · rw [Token.isPunct_eq_false_iff]
    intro hk
    rw [hk] at h
    cases h

/-- A name that is declared after some first tokens is declared. -/
theorem mem_declaredFunctions_append (h : name ∈ declaredFunctions (pre.foldl braceDepth depth) ts) :
    name ∈ declaredFunctions depth (pre ++ ts) := by
  induction pre generalizing depth with
  | nil => exact h
  | cons before pre ih =>
    have hmore : name ∈ declaredFunctions (braceDepth depth before) (pre ++ ts) := ih h
    rw [List.cons_append]
    rcases hrest : pre ++ ts with _ | ⟨t, us⟩
    · rw [hrest] at hmore
      cases hmore
    · rw [hrest] at hmore
      rw [declaredFunctions]
      split
      · exact List.mem_cons_of_mem _ hmore
      · exact hmore

/-- The names that are counted up are those outside of braces by the depth of them. -/
theorem mem_declaredFunctions_iff : name ∈ declaredFunctions depth ts ↔
    ∃ pre before t paren post, ts = pre ++ before :: t :: paren :: post ∧
      pre.foldl braceDepth depth = 0 ∧ isTypeName before.kind = true ∧
      t.kind = .identifier ∧ t.text = name ∧ paren.isPunct '(' = true := by
  constructor
  · intro h
    fun_induction declaredFunctions depth ts with
    | case1 depth before t ts more here ih =>
      obtain ⟨outside, ht, hbefore, hparen⟩ := here
      obtain rfl | hmore := List.mem_cons.1 h
      · obtain ⟨paren, post, rfl, hparen⟩ := startsWith_iff.1 hparen
        rw [braceDepth_of_isTypeName hbefore] at outside
        exact ⟨[], before, t, paren, post, rfl, outside, hbefore, ht, rfl, hparen⟩
      · obtain ⟨pre, before', t', paren, post, hts, found⟩ := ih hmore
        exact ⟨before :: pre, before', t', paren, post, congrArg _ hts, found⟩
    | case2 depth before t ts more _ ih =>
      obtain ⟨pre, before', t', paren, post, hts, found⟩ := ih h
      exact ⟨before :: pre, before', t', paren, post, congrArg _ hts, found⟩
    | case3 => cases h
  · rintro ⟨pre, before, t, paren, post, rfl, outside, hbefore, ht, rfl, hparen⟩
    apply mem_declaredFunctions_append
    rw [declaredFunctions, braceDepth_of_isTypeName hbefore,
      if_pos ⟨outside, ht, hbefore, startsWith_iff.2 ⟨_, _, rfl, hparen⟩⟩]
    exact List.mem_cons_self

/-- **The names that are counted up in a balanced run are those that it declares.** -/
theorem Grammar.Balanced.mem_declaredFunctions (h : Balanced Outside ts) :
    name ∈ declaredFunctions 0 ts ↔ DeclaresFunction ts name := by
  simp only [mem_declaredFunctions_iff, DeclaresFunction, isTypeName_iff]
  constructor
  · rintro ⟨pre, before, t, paren, post, rfl, outside, found⟩
    have balanced := (h.of_prefix (List.prefix_append pre _)).2 outside
    exact ⟨pre, before, t, paren, post, rfl, balanced.mono fun _ _ => trivial, found⟩
  · rintro ⟨pre, before, t, paren, post, rfl, balanced, found⟩
    exact ⟨pre, before, t, paren, post, rfl, balanced.foldl_braceDepth, found⟩

/-! ## The tokens of a stretch -/

/-- The tokens that lie in a stretch. -/
def tokensIn (ts : List Token) (s : Span) : List Token :=
  ts.filter fun t => s.start ≤ t.span.start ∧ t.span.stop ≤ s.stop

theorem spanOf_cons_stop (t u : Token) (us : List Token) :
    (spanOf t (u :: us)).stop = (spanOf u us).stop := by
  simp only [spanOf, Span.through, List.getLast_cons_cons]

/-- A run of tokens in order lies in its stretch. -/
theorem inOrder_run {t : Token} (order : Token.InOrder a (t :: us) b) :
    Token.InOrder (spanOf t us).start (t :: us) (spanOf t us).stop := by
  induction us generalizing a t with
  | nil => exact ⟨Nat.le_refl _, order.2.1, Nat.le_refl _⟩
  | cons u us ih =>
    obtain ⟨-, ht, order⟩ := order
    have hrun := (ih order).mono order.1 (Nat.le_refl _)
    rw [← spanOf_cons_stop t] at hrun
    exact ⟨Nat.le_refl _, ht, hrun⟩

/-- **The tokens that lie in the stretch of a run are the run.** -/
theorem tokensIn_spanOf {t : Token} (order : Token.InOrder a (pre ++ (t :: (us ++ post))) b)
    (hts : ∀ u ∈ pre ++ (t :: (us ++ post)), u.span.start < u.span.stop) :
    tokensIn (pre ++ (t :: (us ++ post))) (spanOf t us) = t :: us := by
  have hbefore : ∀ u ∈ pre, u.span.stop ≤ t.span.start := fun u hu =>
    (List.pairwise_append.1 (List.pairwise_map.1 order.pairwise)).2.2 u hu t List.mem_cons_self
  have order := order.of_suffix (List.suffix_append _ _)
  have hrun : ∀ u ∈ t :: us, u.span.Within (spanOf t us) := fun u hu =>
    (inOrder_run (order.sublist ((List.sublist_append_left _ _).map _))).within u.span
      (List.mem_map_of_mem hu)
  have hafter : ∀ u ∈ post, (spanOf t us).stop ≤ u.span.start := fun u hu =>
    ((inOrder_spanOf order).2.2.within u.span (List.mem_map_of_mem hu)).1
  have hsplit : pre ++ (t :: (us ++ post)) = pre ++ ((t :: us) ++ post) := rfl
  rw [hsplit] at hts ⊢
  rw [tokensIn, List.filter_append, List.filter_append, List.filter_eq_nil_iff.2,
    List.filter_eq_self.2, List.filter_eq_nil_iff.2, List.nil_append, List.append_nil]
  · intro u hu hin
    have hlt := hts u (List.mem_append_right _ (List.mem_append_right _ hu))
    exact Nat.not_lt.2 (of_decide_eq_true hin).2 (Nat.lt_of_le_of_lt (hafter u hu) hlt)
  · intro u hu
    exact decide_eq_true ⟨(hrun u hu).1, (hrun u hu).2.2⟩
  · intro u hu hin
    exact Nat.not_lt.2 (of_decide_eq_true hin).1
      (Nat.lt_of_lt_of_le (hts u (List.mem_append_left _ hu)) (hbefore u hu))

/-! ## The functions of a pass -/

/-- Whether the shared text of a pass declares a function, in one of its stretches. -/
def Pass.Declares (p : Pass) (ts : List Token) (name : String) : Prop :=
  ∃ s ∈ p.shared, DeclaresFunction (tokensIn ts s) name

namespace Grammar

/-- The functions that an item of shared text declares. -/
theorem Item.mem_functionNames {span : Span} {functions : List String}
    (h : Item R us (.shared span functions) rest) (hs : us <:+ ts)
    (order : Token.InOrder a ts b) (hts : ∀ t ∈ ts, t.span.start < t.span.stop) :
    name ∈ functions ↔ DeclaresFunction (tokensIn ts span) name := by
  obtain ⟨pre, rfl⟩ := hs
  obtain _ | _ | _ | _ | ⟨_, run, _⟩ := h
  rw [tokensIn_spanOf order hts]
  exact run.mem_declaredFunctions

/-- **The functions of a pass are those that its shared text declares.** -/
theorem PassBlock.mem_functions {p : Pass} (h : PassBlock R us p rest) (hs : us <:+ ts)
    (order : Token.InOrder a ts b) (hts : ∀ t ∈ ts, t.span.start < t.span.stop) :
    name ∈ p.functions ↔ p.Declares ts name := by
  have hitem : ∀ span functions, .shared span functions ∈ p.items →
      (name ∈ functions ↔ DeclaresFunction (tokensIn ts span) name) := by
    intro span functions hi
    obtain ⟨vs, after, hsuffix, item⟩ := h.exists_item _ hi
    exact item.mem_functionNames (hsuffix.trans hs) order hts
  rw [Pass.functions, List.mem_eraseDups, List.mem_flatMap]
  constructor
  · rintro ⟨i, hi, hname⟩
    obtain _ | _ | _ | ⟨span, functions⟩ := i
    · cases hname
    · cases hname
    · cases hname
    · exact ⟨span, List.mem_filterMap.2 ⟨_, hi, rfl⟩, (hitem _ _ hi).1 hname⟩
  · rintro ⟨span, hspan, hname⟩
    obtain ⟨functions, hi⟩ := Pass.mem_items_of_shared hspan
    exact ⟨_, hi, (hitem _ _ hi).2 hname⟩

end Grammar

end ShaderPass.Shader
