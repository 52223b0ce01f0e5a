import Mathlib.Data.List.Pairwise
import ShaderPass.Proofs.Shader.Acceptance
import ShaderPass.Proofs.Shader.Tokens

/-!
# Proofs/Shader/Layout — where the blocks of an accepted text stand

    SubShader { Pass { vec4 c; … VertexShader { … } … } Pass { … } }
    └─────────────────────── sub-shader ──────────────────────────┘
                └─────────────── pass ────────────────┘ └─ pass ─┘
                       └shared┘               └inline┘

The stretches that a derivation records are in order wherever the tokens it takes are, so one lemma
for each production says so (`Item.inOrder`, `PassBlock.inOrder`, …), and the layout of a whole file is
put together from them (`layout_of_parse`).
-/

namespace ShaderPass.Shader

open Grammar
open Source (Span)
open Text (Boundary)

variable {R : Rules} {ts rest : List Token} {text : String} {a b : Nat}

/-! ## The stretches of a tree -/

/-- The stretch that a stage's own text, or the name of its entry point, stands in. -/
def StageText.span : StageText → Span
  | .inline span | .entry _ span => span

/-- The stretches that an item of a pass records. -/
def PassItem.spans : PassItem → List Span
  | .stage _ text => [text.span]
  | .shared span _ => [span]
  | .tags _ | .states _ => []

/-- The stretches that a pass records. -/
def Pass.spans (p : Pass) : List Span := p.span :: p.items.flatMap (·.spans)

/-- The stretches that a sub-shader records. -/
def SubShader.spans (s : SubShader) : List Span := s.span :: s.passes.flatMap (·.spans)

/-- The stretches that a file records. -/
def Tree.spans (tree : Tree) : List Span := tree.subShaders.flatMap (·.spans)

/-- Whether a stretch is what is between an opening brace and the closing brace that matches it. -/
def Enclosed (ts : List Token) (span : Span) : Prop :=
  ∃ pre o us c post, ts = pre ++ o :: (us ++ c :: post) ∧ o.isPunct '{' = true ∧
    Balanced (fun _ => True) us ∧ c.isPunct '}' = true ∧ span = ⟨o.span.stop, c.span.start⟩

/-! ## Where items come from -/

namespace Grammar

theorem ItemList.exists_item {is : List PassItem} {stop : Nat} (h : ItemList R ts is stop rest) :
    ∀ i ∈ is, ∃ us after, us <:+ ts ∧ Item R us i after := by
  induction h with
  | close => exact List.forall_mem_nil _
  | item item _ ih =>
    refine List.forall_mem_cons.2 ⟨⟨_, _, List.suffix_refl _, item⟩, fun i hi => ?_⟩
    obtain ⟨us, after, hs, h⟩ := ih i hi
    exact ⟨us, after, hs.trans item.suffix, h⟩

/-- Each item of a pass derives somewhere in it. -/
theorem PassBlock.exists_item {p : Pass} (h : PassBlock R ts p rest) :
    ∀ i ∈ p.items, ∃ us after, us <:+ ts ∧ Item R us i after := by
  obtain ⟨_, named, _, items⟩ := h
  intro i hi
  obtain ⟨us, after, hs, h⟩ := items.exists_item i hi
  exact ⟨us, after,
    ((hs.trans (List.suffix_cons _ _)).trans named.suffix).trans (List.suffix_cons _ _), h⟩

theorem SubShaderItems.exists_pass {is : List SubShaderItem} {stop : Nat}
    (h : SubShaderItems R ts is stop rest) :
    ∀ p ∈ is.filterMap (·.pass?), ∃ us after, us <:+ ts ∧ PassBlock R us p after := by
  induction h with
  | close => exact List.forall_mem_nil _
  | directive _ _ ih =>
    intro p hp
    obtain ⟨us, after, hs, h⟩ := ih p hp
    exact ⟨us, after, hs.trans (List.suffix_cons _ _), h⟩
  | tags _ entries _ ih =>
    intro p hp
    obtain ⟨us, after, hs, h⟩ := ih p hp
    exact ⟨us, after, (hs.trans entries.suffix).trans (List.suffix_cons _ _), h⟩
  | pass pass _ ih =>
    refine List.forall_mem_cons.2 ⟨⟨_, _, List.suffix_refl _, pass⟩, fun p hp => ?_⟩
    obtain ⟨us, after, hs, h⟩ := ih p hp
    exact ⟨us, after, hs.trans pass.suffix, h⟩

/-- Each pass of a sub-shader derives somewhere in it. -/
theorem SubShaderBlock.exists_pass {s : SubShader} (h : SubShaderBlock R ts s rest) :
    ∀ p ∈ s.passes, ∃ us after, us <:+ ts ∧ PassBlock R us p after := by
  obtain ⟨_, named, _, items, _, _⟩ := h
  intro p hp
  obtain ⟨us, after, hs, h⟩ := items.exists_pass p hp
  exact ⟨us, after,
    ((hs.trans (List.suffix_cons _ _)).trans named.suffix).trans (List.suffix_cons _ _), h⟩

theorem SubShaders.exists_subShader {ss : List SubShader} (h : SubShaders R ts ss rest) :
    ∀ s ∈ ss, ∃ us after, us <:+ ts ∧ SubShaderBlock R us s after := by
  induction h with
  | nil => exact List.forall_mem_nil _
  | directive _ _ ih =>
    intro s hs
    obtain ⟨us, after, hsuffix, h⟩ := ih s hs
    exact ⟨us, after, hsuffix.trans (List.suffix_cons _ _), h⟩
  | subShader subShader _ ih =>
    refine List.forall_mem_cons.2 ⟨⟨_, _, List.suffix_refl _, subShader⟩, fun s hs => ?_⟩
    obtain ⟨us, after, hsuffix, h⟩ := ih s hs
    exact ⟨us, after, hsuffix.trans subShader.suffix, h⟩

theorem File.exists_subShaders {tree : Tree} (h : File R ts tree) :
    ∃ us after, us <:+ ts ∧ SubShaders R us tree.subShaders after := by
  obtain ⟨subShaders, _⟩ | @⟨ds, ds', us, k, name, o, c, _, _, _, _, _, subShaders, _, _, _⟩ := h
  · exact ⟨ts, [], List.suffix_refl _, subShaders⟩
  · exact ⟨us, c :: ds', ⟨ds ++ [k, name, o], by simp⟩, subShaders⟩

/-- Each pass of a file derives somewhere in it. -/
theorem File.exists_pass {tree : Tree} (h : File R ts tree) :
    ∀ s ∈ tree.subShaders, ∀ p ∈ s.passes, ∃ us after, us <:+ ts ∧ PassBlock R us p after := by
  intro s hs p hp
  obtain ⟨us, after, hsuffix, subShaders⟩ := h.exists_subShaders
  obtain ⟨vs, after', hsuffix', subShader⟩ := subShaders.exists_subShader s hs
  obtain ⟨ws, after'', hsuffix'', pass⟩ := subShader.exists_pass p hp
  exact ⟨ws, after'', (hsuffix''.trans hsuffix').trans hsuffix, pass⟩

end Grammar

/-! ## Each production keeps the order -/

/-- Whether tokens are one after the other, from an offset on and up to another. -/
abbrev Token.InOrder (a : Nat) (ts : List Token) (b : Nat) : Prop :=
  Span.InOrder a (ts.map (·.span)) b

theorem Token.InOrder.of_suffix (h : Token.InOrder a ts b) (hs : rest <:+ ts) :
    Token.InOrder a rest b := Span.InOrder.sublist h (hs.sublist.map _)

/-- The stretch from the first to the last of some tokens is before those that follow. -/
theorem inOrder_spanOf {t : Token} {us : List Token} (h : Token.InOrder a (t :: (us ++ rest)) b) :
    a ≤ (spanOf t us).start ∧ (spanOf t us).start ≤ (spanOf t us).stop ∧
      Token.InOrder (spanOf t us).stop rest b := by
  induction us generalizing a t with
  | nil => exact h
  | cons u us ih =>
    obtain ⟨ha, ht, h⟩ := h
    obtain ⟨hu, hlast, h⟩ := ih h
    have hstop : (spanOf t (u :: us)).stop = (spanOf u us).stop := by
      simp only [spanOf, Span.through, List.getLast_cons_cons]
    refine ⟨ha, ?_, hstop ▸ h⟩
    rw [hstop]
    exact Nat.le_trans ht (Nat.le_trans hu hlast)

namespace Grammar

/-- The text of a stage comes before all that is left. -/
theorem StageForm.inOrder {stage : StageText} (h : StageForm R ts stage rest)
    (order : Token.InOrder a ts b) :
    ∃ m, Span.InOrder a [stage.span] m ∧ Token.InOrder m rest b := by
  obtain @⟨o, c, us, _, _, _, _⟩ | @⟨eq, name, us, _, _, _, separator⟩ := h
  · obtain ⟨ho, hspan, order⟩ := order
    obtain ⟨hc, hspan', order⟩ := Token.InOrder.of_suffix order (List.suffix_append us (c :: rest))
    exact ⟨c.span.start, ⟨Nat.le_trans ho hspan, hc, Nat.le_refl _⟩, order.mono hspan' (Nat.le_refl _)⟩
  · obtain ⟨heq, hspan, hname, hspan', order⟩ := order
    exact ⟨name.span.stop, ⟨Nat.le_trans (Nat.le_trans heq hspan) hname, hspan', Nat.le_refl _⟩,
      Token.InOrder.of_suffix order separator.suffix⟩

/-- **The stretches of an item are before the tokens that follow it.** -/
theorem Item.inOrder {i : PassItem} (h : Item R ts i rest) (order : Token.InOrder a ts b) :
    ∃ m, Span.InOrder a i.spans m ∧ Token.InOrder m rest b := by
  have hsuffix := h.suffix
  obtain _ | _ | _ | ⟨_, given⟩ | _ := h
  · exact ⟨a, Nat.le_refl _, order.of_suffix hsuffix⟩
  · exact ⟨a, Nat.le_refl _, order.of_suffix hsuffix⟩
  · exact ⟨a, Nat.le_refl _, order.of_suffix hsuffix⟩
  · obtain ⟨hk, hspan, order⟩ := order
    obtain ⟨m, hstage, order⟩ := given.inOrder order
    exact ⟨m, hstage.mono (Nat.le_trans hk hspan) (Nat.le_refl _), order⟩
  · obtain ⟨ha, hspan, order⟩ := inOrder_spanOf order
    exact ⟨_, ⟨ha, hspan, Nat.le_refl _⟩, order⟩

/-- The spans of items stand in the order of the items, up to the brace. -/
theorem ItemList.inOrder {is : List PassItem} {stop : Nat} (h : ItemList R ts is stop rest)
    (order : Token.InOrder a ts b) :
    Span.InOrder a (is.flatMap (·.spans)) stop ∧ Token.InOrder stop rest b := by
  induction h generalizing a with
  | close =>
    obtain ⟨hc, hspan, order⟩ := order
    exact ⟨Nat.le_trans hc hspan, order⟩
  | item item _ ih =>
    obtain ⟨m, hitem, order⟩ := item.inOrder order
    obtain ⟨hmore, order⟩ := ih order
    exact ⟨hitem.append hmore, order⟩

/-- **The stretches of the items of a pass are in order inside it**, and it is before the tokens that
follow it. -/
theorem PassBlock.inOrder {p : Pass} (h : PassBlock R ts p rest) (order : Token.InOrder a ts b) :
    Span.InOrder a [p.span] p.span.stop ∧ Token.InOrder p.span.stop rest b ∧
      Span.InOrder p.span.start (p.items.flatMap (·.spans)) p.span.stop := by
  obtain ⟨_, named, _, items⟩ := h
  obtain ⟨hk, hspan, order⟩ := order
  obtain ⟨ho, hspan', order⟩ := Token.InOrder.of_suffix order named.suffix
  obtain ⟨hitems, order⟩ := items.inOrder order
  have hitems := hitems.mono (Nat.le_trans hspan (Nat.le_trans ho hspan')) (Nat.le_refl _)
  exact ⟨⟨hk, hitems.le, Nat.le_refl _⟩, order, hitems⟩

theorem SubShaderItems.inOrder {is : List SubShaderItem} {stop : Nat}
    (h : SubShaderItems R ts is stop rest) (order : Token.InOrder a ts b) :
    Span.InOrder a ((is.filterMap (·.pass?)).map (·.span)) stop ∧ Token.InOrder stop rest b := by
  induction h generalizing a with
  | close =>
    obtain ⟨hc, hspan, order⟩ := order
    exact ⟨Nat.le_trans hc hspan, order⟩
  | directive _ _ ih => exact ih (order.of_suffix (List.suffix_cons _ _))
  | tags _ entries _ ih =>
    exact ih (order.of_suffix (entries.suffix.trans (List.suffix_cons _ _)))
  | pass pass _ ih =>
    obtain ⟨hpass, order, -⟩ := pass.inOrder order
    obtain ⟨hmore, order⟩ := ih order
    exact ⟨hpass.append hmore, order⟩

/-- **The passes of a sub-shader are in order inside it**, and it is before the tokens that follow
it. -/
theorem SubShaderBlock.inOrder {s : SubShader} (h : SubShaderBlock R ts s rest)
    (order : Token.InOrder a ts b) :
    Span.InOrder a [s.span] s.span.stop ∧ Token.InOrder s.span.stop rest b ∧
      Span.InOrder s.span.start (s.passes.map (·.span)) s.span.stop := by
  obtain ⟨_, named, _, items, span, _⟩ := h
  obtain ⟨hk, hspan, order⟩ := order
  obtain ⟨ho, hspan', order⟩ := Token.InOrder.of_suffix order named.suffix
  obtain ⟨hpasses, order⟩ := items.inOrder order
  have hpasses := hpasses.mono (Nat.le_trans hspan (Nat.le_trans ho hspan')) (Nat.le_refl _)
  rw [span]
  exact ⟨⟨hk, hpasses.le, Nat.le_refl _⟩, order, hpasses⟩

/-- The spans of sub-shaders stand in their order. -/
theorem SubShaders.inOrder {ss : List SubShader} (h : SubShaders R ts ss rest)
    (order : Token.InOrder a ts b) :
    ∃ m, Span.InOrder a (ss.map (·.span)) m ∧ Token.InOrder m rest b := by
  induction h generalizing a with
  | nil => exact ⟨a, Nat.le_refl _, order⟩
  | directive _ _ ih => exact ih (order.of_suffix (List.suffix_cons _ _))
  | subShader subShader _ ih =>
    obtain ⟨hsub, order, -⟩ := subShader.inOrder order
    obtain ⟨m, hmore, order⟩ := ih order
    exact ⟨m, hsub.append hmore, order⟩

end Grammar

/-! ## Each stretch begins and ends where a token does -/

/-- Whether a token begins or ends at an offset. -/
def Edge (ts : List Token) (n : Nat) : Prop := ∃ t ∈ ts, t.span.start = n ∨ t.span.stop = n

/-- Whether a stretch begins and ends where tokens do. -/
def Edged (ts : List Token) (s : Span) : Prop := Edge ts s.start ∧ Edge ts s.stop

theorem edge_start {t : Token} (h : t ∈ ts) : Edge ts t.span.start := ⟨t, h, .inl rfl⟩

theorem edge_stop {t : Token} (h : t ∈ ts) : Edge ts t.span.stop := ⟨t, h, .inr rfl⟩

theorem Edge.of_suffix {n : Nat} (h : Edge rest n) (hs : rest <:+ ts) : Edge ts n := by
  obtain ⟨t, ht, hn⟩ := h
  exact ⟨t, hs.mem ht, hn⟩

theorem Edged.of_suffix {s : Span} (h : Edged rest s) (hs : rest <:+ ts) : Edged ts s :=
  ⟨h.1.of_suffix hs, h.2.of_suffix hs⟩

/-- The edges of tokens are boundaries of their text. -/
theorem Edge.boundary {n : Nat} (h : Edge ts n) (hts : ∀ t ∈ ts, t.StandsIn text) :
    Boundary text n := by
  obtain ⟨t, ht, rfl | rfl⟩ := h
  · exact (hts t ht).boundary_start
  · exact (hts t ht).boundary_stop

theorem edged_spanOf {t : Token} {us : List Token} (h : ∀ u ∈ t :: us, u ∈ ts) :
    Edged ts (spanOf t us) :=
  ⟨edge_start (h t List.mem_cons_self), edge_stop (h _ (List.getLast_mem _))⟩

namespace Grammar

/-- The spans of an item start and stop at edges of tokens. -/
theorem Item.edged {i : PassItem} (h : Item R ts i rest) : ∀ s ∈ i.spans, Edged ts s := by
  obtain _ | _ | _ | ⟨_, given⟩ | _ := h
  · exact List.forall_mem_nil _
  · exact List.forall_mem_nil _
  · exact List.forall_mem_nil _
  · obtain @⟨o, c, us, _, _, _, _⟩ | @⟨eq, name, us, _, _, _, _⟩ := given
    · refine List.forall_mem_singleton.2 ⟨edge_stop ?_, edge_start ?_⟩ <;> simp
    · refine List.forall_mem_singleton.2 ⟨edge_start ?_, edge_stop ?_⟩ <;> simp
  · refine List.forall_mem_singleton.2 (edged_spanOf fun u hu => ?_)
    exact (List.prefix_append _ _).subset hu

theorem ItemList.edge_stop {is : List PassItem} {stop : Nat} (h : ItemList R ts is stop rest) :
    Edge ts stop := by
  induction h with
  | close => exact ShaderPass.Shader.edge_stop List.mem_cons_self
  | item item _ ih => exact ih.of_suffix item.suffix

/-- The spans of a pass start and stop at edges of tokens. -/
theorem PassBlock.edged {p : Pass} (h : PassBlock R ts p rest) : ∀ s ∈ p.spans, Edged ts s := by
  refine List.forall_mem_cons.2 ⟨?_, fun s hs => ?_⟩
  · obtain ⟨_, named, _, items⟩ := h
    refine ⟨edge_start List.mem_cons_self, items.edge_stop.of_suffix ?_⟩
    exact ((List.suffix_cons _ _).trans named.suffix).trans (List.suffix_cons _ _)
  · obtain ⟨i, hi, hs⟩ := List.mem_flatMap.1 hs
    obtain ⟨us, after, hsuffix, item⟩ := h.exists_item i hi
    exact (item.edged s hs).of_suffix hsuffix

theorem SubShaderItems.edge_stop {is : List SubShaderItem} {stop : Nat}
    (h : SubShaderItems R ts is stop rest) : Edge ts stop := by
  induction h with
  | close => exact ShaderPass.Shader.edge_stop List.mem_cons_self
  | directive _ _ ih => exact ih.of_suffix (List.suffix_cons _ _)
  | tags _ entries _ ih => exact ih.of_suffix (entries.suffix.trans (List.suffix_cons _ _))
  | pass pass _ ih => exact ih.of_suffix pass.suffix

/-- The spans of a sub-shader start and stop at edges of tokens. -/
theorem SubShaderBlock.edged {s : SubShader} (h : SubShaderBlock R ts s rest) :
    ∀ span ∈ s.spans, Edged ts span := by
  refine List.forall_mem_cons.2 ⟨?_, fun span hspan => ?_⟩
  · obtain ⟨_, named, _, items, span, _⟩ := h
    rw [span]
    refine ⟨edge_start List.mem_cons_self, items.edge_stop.of_suffix ?_⟩
    exact ((List.suffix_cons _ _).trans named.suffix).trans (List.suffix_cons _ _)
  · obtain ⟨p, hp, hspan⟩ := List.mem_flatMap.1 hspan
    obtain ⟨us, after, hsuffix, pass⟩ := h.exists_pass p hp
    exact (pass.edged span hspan).of_suffix hsuffix

/-- **Every stretch that a file records begins and ends where a token does.** -/
theorem File.edged {tree : Tree} (h : File R ts tree) : ∀ span ∈ tree.spans, Edged ts span := by
  intro span hspan
  obtain ⟨s, hs, hspan⟩ := List.mem_flatMap.1 hspan
  obtain ⟨us, after, hsuffix, subShaders⟩ := h.exists_subShaders
  obtain ⟨vs, after', hsuffix', subShader⟩ := subShaders.exists_subShader s hs
  exact (subShader.edged span hspan).of_suffix (hsuffix'.trans hsuffix)

end Grammar

/-! ## The layout of a file -/

/-- The layout of a pass: the stretches of shared text are not empty and in order, apart from both
stages, which are apart from each other; all are inside the pass; and a stage with a text of its own is
what its braces enclose. -/
structure Pass.LaidOut (p : Pass) (ts : List Token) : Prop where
  nonempty : ∀ s ∈ p.shared, s.start < s.stop
  shared : p.shared.Pairwise Span.Before
  sharedWithin : ∀ s ∈ p.shared, s.Within p.span
  stageWithin : ∀ kind stage, p.stage? kind = some stage → stage.span.Within p.span
  sharedApart : ∀ s ∈ p.shared, ∀ kind stage, p.stage? kind = some stage → s.Apart stage.span
  stagesApart : ∀ vertex fragment, p.stage? .vertex = some vertex →
    p.stage? .fragment = some fragment → vertex.span.Apart fragment.span
  inline : ∀ kind span, p.stage? kind = some (.inline span) → Enclosed ts span

/-- The layout of a sub-shader: its passes are in order inside it. -/
structure SubShader.LaidOut (s : SubShader) (ts : List Token) : Prop where
  passes : (s.passes.map (·.span)).Pairwise Span.Before
  within : ∀ p ∈ s.passes, p.span.Within s.span
  pass : ∀ p ∈ s.passes, p.LaidOut ts

/-- The layout of a file: each stretch is between two boundaries of the text, and the sub-shaders are
in order. -/
structure Tree.LaidOut (tree : Tree) (text : String) (ts : List Token) : Prop where
  boundaries : ∀ s ∈ tree.spans, Boundary text s.start ∧ Boundary text s.stop ∧ s.start ≤ s.stop
  subShaders : (tree.subShaders.map (·.span)).Pairwise Span.Before
  subShader : ∀ s ∈ tree.subShaders, s.LaidOut ts

/-- A stage is an item of its pass. -/
theorem Pass.mem_items_of_stage? {p : Pass} {kind : StageKind} {stage : StageText}
    (h : p.stage? kind = some stage) : .stage kind stage ∈ p.items := by
  obtain ⟨i, hi, hstage⟩ := List.mem_filterMap.1 (List.mem_of_getLast? h)
  unfold PassItem.stage? at hstage
  split at hstage
  next kind' stage' =>
    split at hstage
    next hk => rwa [← hk, ← Option.some.inj hstage]
    next => cases hstage
  next => cases hstage

/-- A stretch of shared text is an item of its pass. -/
theorem Pass.mem_items_of_shared {p : Pass} {s : Span} (h : s ∈ p.shared) :
    ∃ functions, .shared s functions ∈ p.items := by
  obtain ⟨i, hi, hspan⟩ := List.mem_filterMap.1 h
  unfold PassItem.span? at hspan
  split at hspan
  next span functions => exact ⟨functions, Option.some.inj hspan ▸ hi⟩
  next => cases hspan

/-- The stretches of shared text are among those of the items, in their order. -/
theorem Pass.sublist_shared (p : Pass) : p.shared.Sublist (p.items.flatMap (·.spans)) := by
  rw [Pass.shared]
  induction p.items with
  | nil => exact .slnil
  | cons i is ih =>
    cases i with
    | tags | states => exact ih
    | shared span functions => exact ih.cons_cons span
    | stage kind stage => exact ih.cons stage.span

/-- The stretches of two items are apart. -/
theorem Pass.apart {p : Pass} (h : Span.InOrder a (p.items.flatMap (·.spans)) b) {i j : PassItem}
    (hi : i ∈ p.items) (hj : j ∈ p.items) (hne : i ≠ j) :
    ∀ s ∈ i.spans, ∀ t ∈ j.spans, s.Apart t := by
  have symm : Std.Symm fun i j : PassItem => ∀ s ∈ i.spans, ∀ t ∈ j.spans, s.Apart t :=
    ⟨fun _ _ h s hs t ht => (h t ht s hs).symm⟩
  have apart : (p.items.flatMap (·.spans)).Pairwise Span.Apart := h.pairwise.imp .inl
  exact (List.pairwise_flatMap.1 apart).2.forall hi hj hne

theorem start_lt_stop_spanOf {t : Token} {us : List Token}
    (order : Token.InOrder a (t :: (us ++ rest)) b) (ht : t.span.start < t.span.stop) :
    (spanOf t us).start < (spanOf t us).stop := by
  obtain _ | ⟨u, us⟩ := us
  · exact ht
  · obtain ⟨hu, hlast, -⟩ := inOrder_spanOf order.2.2
    have hstop : (spanOf t (u :: us)).stop = (spanOf u us).stop := by
      simp only [spanOf, Span.through, List.getLast_cons_cons]
    rw [hstop]
    exact Nat.lt_of_lt_of_le ht (Nat.le_trans hu hlast)

theorem Enclosed.of_suffix {span : Span} (h : Enclosed rest span) (hs : rest <:+ ts) :
    Enclosed ts span := by
  obtain ⟨pre', rfl⟩ := hs
  obtain ⟨pre, o, us, c, post, rfl, h⟩ := h
  exact ⟨pre' ++ pre, o, us, c, post, by rw [List.append_assoc], h⟩

/-- The body of a stage is what two matching braces enclose. -/
theorem Grammar.Item.enclosed {kind : StageKind} {span : Span}
    (h : Item R ts (.stage kind (.inline span)) rest) : Enclosed ts span := by
  obtain _ | _ | _ | @⟨k, _, _, _, _, _, @⟨o, c, us, _, opening, inside, closing⟩⟩ | _ := h
  exact ⟨[k], o, us, c, rest, rfl, opening, inside, closing, rfl⟩

/-- Shared text is never empty. -/
theorem Grammar.Item.nonempty {span : Span} {functions : List String}
    (h : Item R ts (.shared span functions) rest) (order : Token.InOrder a ts b)
    (hts : ∀ t ∈ ts, t.StandsIn text) : span.start < span.stop := by
  obtain _ | _ | _ | _ | _ := h
  exact start_lt_stop_spanOf order (hts _ List.mem_cons_self).start_lt_stop

/-- **A pass is laid out** where the tokens of its text are. -/
theorem Grammar.PassBlock.laidOut {p : Pass} (h : PassBlock R ts p rest)
    (order : Token.InOrder a ts b) (hts : ∀ t ∈ ts, t.StandsIn text) : p.LaidOut ts := by
  obtain ⟨-, -, hitems⟩ := h.inOrder order
  have hstage : ∀ kind stage, p.stage? kind = some stage → stage.span ∈ p.items.flatMap (·.spans) :=
    fun kind stage hs =>
      List.mem_flatMap.2 ⟨_, Pass.mem_items_of_stage? hs, List.mem_singleton_self _⟩
  refine ⟨fun s hs => ?_, hitems.pairwise.sublist p.sublist_shared,
    fun s hs => hitems.within s (p.sublist_shared.subset hs),
    fun kind stage hs => hitems.within _ (hstage kind stage hs), ?_, ?_, ?_⟩
  · obtain ⟨functions, hs⟩ := Pass.mem_items_of_shared hs
    obtain ⟨us, after, hsuffix, item⟩ := h.exists_item _ hs
    exact item.nonempty (order.of_suffix hsuffix) fun t ht => hts t (hsuffix.mem ht)
  · intro s hs kind stage hstage
    obtain ⟨functions, hs⟩ := Pass.mem_items_of_shared hs
    exact Pass.apart hitems hs (Pass.mem_items_of_stage? hstage) nofun s (List.mem_singleton_self _)
      _ (List.mem_singleton_self _)
  · intro vertex fragment hvertex hfragment
    exact Pass.apart hitems (Pass.mem_items_of_stage? hvertex) (Pass.mem_items_of_stage? hfragment)
      nofun _ (List.mem_singleton_self _) _ (List.mem_singleton_self _)
  · intro kind span hstage
    obtain ⟨us, after, hsuffix, item⟩ := h.exists_item _ (Pass.mem_items_of_stage? hstage)
    exact item.enclosed.of_suffix hsuffix

theorem Pass.LaidOut.of_suffix {p : Pass} (h : p.LaidOut rest) (hs : rest <:+ ts) : p.LaidOut ts :=
  { h with inline := fun kind span hstage => (h.inline kind span hstage).of_suffix hs }

/-- **A sub-shader that derives is laid out as it should be.** -/
theorem Grammar.SubShaderBlock.laidOut {s : SubShader} (h : SubShaderBlock R ts s rest)
    (order : Token.InOrder a ts b) (hts : ∀ t ∈ ts, t.StandsIn text) : s.LaidOut ts := by
  obtain ⟨-, -, hpasses⟩ := h.inOrder order
  refine ⟨hpasses.pairwise, fun p hp => hpasses.within _ (List.mem_map_of_mem hp), fun p hp => ?_⟩
  obtain ⟨us, after, hsuffix, pass⟩ := h.exists_pass p hp
  exact (pass.laidOut (order.of_suffix hsuffix) fun t ht => hts t (hsuffix.mem ht)).of_suffix hsuffix

theorem SubShader.LaidOut.of_suffix {s : SubShader} (h : s.LaidOut rest) (hs : rest <:+ ts) :
    s.LaidOut ts := { h with pass := fun p hp => (h.pass p hp).of_suffix hs }

theorem Grammar.PassBlock.start_le_stop {p : Pass} (h : PassBlock R ts p rest)
    (order : Token.InOrder a ts b) : ∀ s ∈ p.spans, s.start ≤ s.stop := by
  obtain ⟨hpass, -, hitems⟩ := h.inOrder order
  exact List.forall_mem_cons.2 ⟨hpass.2.1, fun s hs => (hitems.within s hs).2.1⟩

theorem Grammar.SubShaderBlock.start_le_stop {s : SubShader} (h : SubShaderBlock R ts s rest)
    (order : Token.InOrder a ts b) : ∀ span ∈ s.spans, span.start ≤ span.stop := by
  refine List.forall_mem_cons.2 ⟨(h.inOrder order).1.2.1, fun span hspan => ?_⟩
  obtain ⟨p, hp, hspan⟩ := List.mem_flatMap.1 hspan
  obtain ⟨us, after, hsuffix, pass⟩ := h.exists_pass p hp
  exact pass.start_le_stop (order.of_suffix hsuffix) span hspan

/-- **A file is laid out** where the tokens of its text stand in it, in order. -/
theorem Grammar.File.laidOut {tree : Tree} (h : File R ts tree) (order : Token.InOrder a ts b)
    (hts : ∀ t ∈ ts, t.StandsIn text) : tree.LaidOut text ts := by
  obtain ⟨us, after, hsuffix, subShaders⟩ := h.exists_subShaders
  obtain ⟨m, hss, -⟩ := subShaders.inOrder (order.of_suffix hsuffix)
  have exists_block : ∀ s ∈ tree.subShaders, ∃ vs after, vs <:+ ts ∧ SubShaderBlock R vs s after := by
    intro s hs
    obtain ⟨vs, after, hsuffix', subShader⟩ := subShaders.exists_subShader s hs
    exact ⟨vs, after, hsuffix'.trans hsuffix, subShader⟩
  refine ⟨fun span hspan => ?_, hss.pairwise, fun s hs => ?_⟩
  · obtain ⟨hstart, hstop⟩ := h.edged span hspan
    obtain ⟨s, hs, hspan⟩ := List.mem_flatMap.1 hspan
    obtain ⟨vs, after, hsuffix, subShader⟩ := exists_block s hs
    exact ⟨hstart.boundary hts, hstop.boundary hts,
      subShader.start_le_stop (order.of_suffix hsuffix) span hspan⟩
  · obtain ⟨vs, after, hsuffix, subShader⟩ := exists_block s hs
    have hs := subShader.laidOut (order.of_suffix hsuffix) fun t ht => hts t (hsuffix.mem ht)
    exact hs.of_suffix hsuffix

/-- What is read has been derived from the tokens of the text. -/
theorem file_of_parse {map : Source.Map} {tree : Tree} (h : (parse text map).result = .ok tree) :
    ∃ ts, tokenize text = .ok ts ∧ File .lenient ts tree := by
  rcases htokens : tokenize text with ⟨fault, location⟩ | ts
  · rw [parse] at h
    simp only [htokens] at h
    cases h
  · rw [parse_result map htokens] at h
    exact ⟨ts, rfl, file_of_readTokens h⟩

/-- **The stretches that are recorded of an accepted text are laid out in it**: each begins and ends
between two characters; sub-shaders, the passes in each, and the shared text and stages in each pass
are apart, in order, and inside what holds them; and the text of a stage is what is between a brace
token and the one that matches it. -/
theorem layout_of_parse {map : Source.Map} {tree : Tree} (h : (parse text map).result = .ok tree) :
    ∃ ts, tokenize text = .ok ts ∧ (∀ t ∈ ts, t.StandsIn text) ∧
      Token.InOrder 0 ts text.utf8ByteSize ∧ tree.LaidOut text ts := by
  obtain ⟨ts, htokens, hfile⟩ := file_of_parse h
  obtain ⟨hts, order⟩ := inOrder_tokenize htokens
  exact ⟨ts, htokens, hts, order, hfile.laidOut order hts⟩

/-- A pass with shared text, and with a stage that has braces in a comment only. -/
theorem layout_of_parse_apply : ∃ tree ts,
    (parse "SubShader{Pass{int c;VertexShader{/*}{*/}}}" default).result = .ok tree ∧
      tree.LaidOut "SubShader{Pass{int c;VertexShader{/*}{*/}}}" ts := by
  have reads : (parse "SubShader{Pass{int c;VertexShader{/*}{*/}}}" default).result.isOk = true := by
    decide +kernel
  rcases hread : (parse "SubShader{Pass{int c;VertexShader{/*}{*/}}}" default).result with e | tree
  · rw [hread] at reads
    cases reads
  · obtain ⟨ts, -, -, -, layout⟩ := layout_of_parse hread
    exact ⟨tree, ts, rfl, layout⟩

end ShaderPass.Shader
