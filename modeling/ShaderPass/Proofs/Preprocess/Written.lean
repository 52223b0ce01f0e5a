import ShaderPass.Proofs.Macro.Origins
import ShaderPass.Proofs.Preprocess.Step
import ShaderPass.Proofs.Source.Pieces

/-!
# Proofs/Preprocess/Written — what one step puts out

    f.mark                    cursor             f'.mark
      │  waiting tokens          │ directive line   │
      ▼                          ▼                  ▼
    ──┼── flush: tokens ─────────┼─ # … ─ line ends ┼──▸ offsets in the unit

A frame is **placed** in a text when its cursor is in it and its waiting tokens are what the text has
between the mark and the cursor.  A step keeps that, and what it puts out comes from places between
the mark before it and the mark after it, in order (`placed_next`, `placed_splice`).  Why it is put
out is listed in `Gives`.
-/

namespace ShaderPass

open Text (HasAt)

namespace Source.Piece

/-! ## Pieces in the order of their unit -/

/-- The offset that the last byte of a piece comes from. -/
def lastOffset (p : Piece) : Nat := p.offsetAt (p.length - 1)

theorem offset_le_offsetAt (p : Piece) (k : Nat) : p.offset ≤ p.offsetAt k := by
  rw [offsetAt]
  split <;> omega

theorem offsetAt_mono (p : Piece) {k l : Nat} (h : k ≤ l) : p.offsetAt k ≤ p.offsetAt l := by
  rw [offsetAt, offsetAt]
  split <;> omega

/-- Some pieces come from places of a unit from one offset to another, in order. -/
structure Ordered (unit lo hi : Nat) (ps : List Piece) : Prop where
  le : lo ≤ hi
  unit : ∀ p ∈ ps, p.unit = unit
  bounds : ∀ p ∈ ps, lo ≤ p.offset ∧ p.lastOffset ≤ hi
  sorted : ps.Pairwise fun p q => p.lastOffset ≤ q.offset

variable {unit lo mid hi : Nat} {ps qs : List Piece}

theorem Ordered.nil (h : lo ≤ hi) : Ordered unit lo hi [] :=
  ⟨h, fun _ hp => absurd hp List.not_mem_nil, fun _ hp => absurd hp List.not_mem_nil, .nil⟩

theorem Ordered.singleton {p : Piece} (hunit : p.unit = unit) (hlo : lo ≤ p.offset)
    (hhi : p.lastOffset ≤ hi) : Ordered unit lo hi [p] := by
  have := p.offset_le_offsetAt (p.length - 1)
  refine ⟨Nat.le_trans hlo (Nat.le_trans this hhi), ?_, ?_, List.pairwise_singleton _ _⟩
  · exact List.forall_mem_singleton.2 hunit
  · exact List.forall_mem_singleton.2 ⟨hlo, hhi⟩

theorem Ordered.append (h : Ordered unit lo mid ps) (h' : Ordered unit mid hi qs) :
    Ordered unit lo hi (ps ++ qs) := by
  refine ⟨Nat.le_trans h.le h'.le, List.forall_mem_append.2 ⟨h.unit, h'.unit⟩,
    List.forall_mem_append.2 ⟨fun p hp => ?_, fun p hp => ?_⟩,
    List.pairwise_append.2 ⟨h.sorted, h'.sorted, fun p hp q hq => ?_⟩⟩
  · exact ⟨(h.bounds p hp).1, Nat.le_trans (h.bounds p hp).2 h'.le⟩
  · exact ⟨Nat.le_trans h.le (h'.bounds p hp).1, (h'.bounds p hp).2⟩
  · exact Nat.le_trans (h.bounds p hp).2 (h'.bounds q hq).1

/-- The bytes of such pieces come from places between the two offsets. -/
theorem Ordered.offsetAt_bounds (h : Ordered unit lo hi ps) {p : Piece} {k : Nat} (hp : p ∈ ps)
    (hk : k < p.length) : lo ≤ p.offsetAt k ∧ p.offsetAt k ≤ hi := by
  obtain ⟨hlo, hhi⟩ := h.bounds p hp
  exact ⟨Nat.le_trans hlo (p.offset_le_offsetAt k),
    Nat.le_trans (p.offsetAt_mono (by omega)) hhi⟩

theorem mem_of_at? {i k : Nat} {p : Piece} (h : at? ps i = some (p, k)) : p ∈ ps ∧ k < p.length := by
  induction ps generalizing i with
  | nil => cases h
  | cons q ps ih =>
    rw [at?] at h
    split at h
    next hi =>
      obtain ⟨rfl, rfl⟩ := Prod.mk.inj (Option.some.inj h)
      exact ⟨List.mem_cons_self, hi⟩
    next => exact ⟨List.mem_cons_of_mem q (ih h).1, (ih h).2⟩

/-- **The offsets of such pieces do not decrease from byte to byte.** -/
theorem Ordered.offsetAt_le (h : Ordered unit lo hi ps) {i j k l : Nat} {p q : Piece}
    (hp : at? ps i = some (p, k)) (hq : at? ps j = some (q, l)) (hij : i ≤ j) :
    p.offsetAt k ≤ q.offsetAt l := by
  have hsorted := h.sorted
  clear h
  induction ps generalizing i j with
  | nil => cases hp
  | cons r ps ih =>
    obtain ⟨hr, hps⟩ := List.pairwise_cons.1 hsorted
    rw [at?] at hp hq
    by_cases hj : j < r.length
    · rw [if_pos hj] at hq
      rw [if_pos (Nat.lt_of_le_of_lt hij hj)] at hp
      obtain ⟨rfl, rfl⟩ := Prod.mk.inj (Option.some.inj hp)
      obtain ⟨rfl, rfl⟩ := Prod.mk.inj (Option.some.inj hq)
      exact r.offsetAt_mono hij
    · rw [if_neg hj] at hq
      by_cases hi : i < r.length
      · rw [if_pos hi] at hp
        obtain ⟨rfl, rfl⟩ := Prod.mk.inj (Option.some.inj hp)
        have hmem := (mem_of_at? hq).1
        calc r.offsetAt i ≤ r.lastOffset := r.offsetAt_mono (by omega)
          _ ≤ q.offset := hr q hmem
          _ ≤ q.offsetAt l := q.offset_le_offsetAt l
      · rw [if_neg hi] at hp
        exact ih hp hq (by omega) hps

end Source.Piece

namespace Preprocess

open Lexeme (Cursor)
open Macro (Token Origin)
open Source.Piece (Ordered)

variable {env : Settings} {f f' : Frame} {s s₁ s₂ s' : State} {text : String}

/-! ## What is added to the output -/

/-- One state has put out what another had, and some more. -/
def State.Adds (s : State) (es : List Emission) (s' : State) : Prop :=
  s'.emitted.toList = s.emitted.toList ++ es

theorem State.Adds.trans {es es' : List Emission} (h : s.Adds es s₁) (h' : s₁.Adds es' s₂) :
    s.Adds (es ++ es') s₂ := by
  rw [State.Adds, h', h, List.append_assoc]

theorem State.adds_nil (h : s'.emitted = s.emitted) : s.Adds [] s' := by
  rw [State.Adds, h, List.append_nil]

theorem State.adds_emit (s : State) (e : Emission) : s.Adds [e] (s.emit e) :=
  Array.toList_push

theorem State.adds_emitTokens (s : State) (tokens : List Token) :
    s.Adds (tokens.map .token) (tokens.foldl State.emitToken s) := by
  induction tokens generalizing s with
  | nil => exact State.adds_nil rfl
  | cons t ts ih => exact (s.adds_emit _).trans (ih _)

theorem State.adds_emitLineEnds (s : State) (unit : Nat) (offsets : List Nat) :
    s.Adds (offsets.map (.lineEnd unit)) (s.emitLineEnds unit offsets) := by
  unfold State.emitLineEnds
  induction offsets generalizing s with
  | nil => exact State.adds_nil rfl
  | cons o os ih => exact (s.adds_emit _).trans (ih _)

theorem adds_flush (h : flush f s = .ok s₁) : ∃ tokens,
    Macro.expand s.macros f.waiting.reverse = .ok tokens ∧ s.Adds (tokens.map .token) s₁ := by
  unfold flush at h
  split at h
  next => cases h
  next tokens he =>
    obtain rfl := Except.ok.inj h
    exact ⟨tokens, he, s.adds_emitTokens tokens⟩

/-- A line puts out nothing, unless it is a directive that is passed through. -/
theorem adds_handle {origin : Origin} {line : String}
    (h : handle env f origin line s = .ok (.proceed s')) :
    s.Adds [] s' ∨ ∃ text rest, Directive.parse? line = some (.passThrough text, rest) ∧
      s.Adds [.passed text origin] s' := by
  cases handles_of_handle h with
  | skipped | opensSkipped => exact .inl (State.adds_nil rfl)
  | obeys _ parses obeys =>
    cases obeys with
    | passThrough text => exact .inr ⟨text, _, parses, s.adds_emit _⟩
    | define =>
      refine .inl (State.adds_nil ?_)
      rw [State.define]
      split <;> rfl
    | undefine | openGroup | elseIf | otherwise | endGroup | notSpliced | once | nothing =>
      exact .inl (State.adds_nil rfl)

/-! ## Why it is put out -/

/-- What the step at a frame can put out by itself: a waiting token; one that replaces the name of a
macro among the waiting tokens; a line feed for a line end of a directive line, or for one that is
dropped; the text of a directive that is passed through. -/
inductive Gives (f : Frame) (s : State) : Emission → Prop
  | kept {t : Token} (waits : t ∈ f.waiting) : Gives f s (.token t)
  | replaced {t name : Token} (elsewhere : t.verbatim = false) (waits : name ∈ f.waiting)
      (identifier : name.kind = .identifier) (defined : s.macros.isDefined name.text = true)
      (place : t.origin = name.origin) : Gives f s (.token t)
  | lineEnd {s₁ : State} {line : Directive.Line} {after : Cursor} {o : Nat}
      (reads : AtDirective f s s₁ line after) (mem : o ∈ line.lineEnds) :
      Gives f s (.lineEnd f.unit o)
  | dropped {l : Lexeme} {c : Cursor} (reads : AtLexeme f s l c) (inactive : s.isActive = false)
      (newline : l.kind = .newline) : Gives f s (.lineEnd f.unit f.origin.offset)
  | passed {s₁ : State} {line : Directive.Line} {after : Cursor} {text : String}
      {rest : List Char} (reads : AtDirective f s s₁ line after)
      (parses : Directive.parse? line.text = some (.passThrough text, rest)) :
      Gives f s (.passed text f.origin)

/-- What is flushed is given by the waiting tokens. -/
theorem gives_token {tokens : List Token}
    (h : Macro.expand s.macros f.waiting.reverse = .ok tokens) :
    ∀ e ∈ tokens.map Emission.token, Gives f s e := by
  intro e he
  obtain ⟨t, ht, rfl⟩ := List.mem_map.1 he
  have came := Macro.cameFrom_expands (Macro.expands_of_expand h) (fun _ => .inl) t ht
  rcases came with ht | ⟨hv, name, hname, hk, hd, ho⟩
  · exact .kept (List.mem_reverse.1 ht)
  · exact .replaced hv (List.mem_reverse.1 hname) hk hd ho

theorem gives_lineEnds {line : Directive.Line} {after : Cursor}
    (h : AtDirective f s s₁ line after) :
    ∀ e ∈ line.lineEnds.map (Emission.lineEnd f.unit), Gives f s e := by
  intro e he
  obtain ⟨o, ho, rfl⟩ := List.mem_map.1 he
  exact .lineEnd h ho

/-! ## Frames placed in a text -/

/-- A frame is **placed** in a text. -/
structure Frame.Placed (f : Frame) (s : State) (text : String) : Prop where
  unit : s.units[f.unit]? = some ⟨f.name, text⟩
  cursor : f.cursor.In text
  hasAt : ∀ t ∈ f.waiting, t.verbatim = true ∧ t.origin.unit = f.unit ∧
    HasAt text t.origin.offset t.text
  sorted : f.waiting.Pairwise fun t u => u.Before t
  before : ∀ t ∈ f.waiting, t.lastOffset ≤ f.cursor.location.offset
  active : f.waiting ≠ [] → s.isActive = true

/-- Nothing waits in skipped text. -/
theorem Frame.Placed.waiting_eq_nil (h : f.Placed s text) (inactive : s.isActive = false) :
    f.waiting = [] :=
  Decidable.byContradiction fun hne => Bool.false_ne_true (inactive.symm.trans (h.active hne))

/-- The offset from which on nothing of the unit has been put out yet. -/
def Frame.mark (f : Frame) : Nat :=
  match f.waiting.getLast? with
  | some t => t.origin.offset
  | none => f.cursor.location.offset

theorem Frame.mark_of_waiting_nil (h : f.waiting = []) : f.mark = f.cursor.location.offset := by
  rw [Frame.mark, h]
  rfl

theorem Frame.Placed.mark_le (h : f.Placed s text) :
    f.mark ≤ f.cursor.location.offset ∧ ∀ t ∈ f.waiting, f.mark ≤ t.origin.offset := by
  rw [Frame.mark]
  cases hl : f.waiting.getLast? with
  | none =>
    rw [List.getLast?_eq_none_iff] at hl
    exact ⟨Nat.le_refl _, fun t ht => absurd (hl ▸ ht) List.not_mem_nil⟩
  | some first =>
    obtain ⟨init, hinit⟩ := List.getLast?_eq_some_iff.1 hl
    have hfirst := h.before first (hinit ▸ List.mem_append_right _ List.mem_cons_self)
    refine ⟨Nat.le_trans first.offset_le_lastOffset hfirst, fun t ht => ?_⟩
    have hsorted := h.sorted
    rw [hinit] at ht hsorted
    rcases List.mem_append.1 ht with ht | ht
    · have := (List.pairwise_append.1 hsorted).2.2 t ht first List.mem_cons_self
      exact Nat.le_trans first.offset_le_lastOffset this
    · exact Nat.le_of_eq (by rw [List.mem_singleton.1 ht])

/-- The tokens of the output that is flushed come from places between the mark and the cursor. -/
theorem Frame.Placed.ordered_tokens (h : f.Placed s text) {tokens : List Token}
    (he : Macro.expand s.macros f.waiting.reverse = .ok tokens) :
    Ordered f.unit f.mark f.cursor.location.offset
      ((tokens.map Emission.token).map Emission.piece) := by
  have hexp := Macro.expands_of_expand he
  have came := Macro.cameFrom_expands hexp fun _ => .inl
  have last : ∀ t : Token, (Emission.token t).piece.lastOffset = t.lastOffset := fun t => rfl
  refine ⟨h.mark_le.1, ?_, ?_, ?_⟩
  · simp only [List.forall_mem_map]
    intro t ht
    obtain ⟨u, hu, hunit, -, -⟩ := (came t ht).exists_between
    exact hunit.symm.trans (h.hasAt u (List.mem_reverse.1 hu)).2.1
  · simp only [List.forall_mem_map]
    intro t ht
    obtain ⟨u, hu, -, hlo, hhi⟩ := (came t ht).exists_between
    have hu := List.mem_reverse.1 hu
    exact ⟨Nat.le_trans (h.mark_le.2 u hu) hlo, Nat.le_trans hhi (h.before u hu)⟩
  · have hq : f.waiting.reverse.Pairwise Token.Before := List.pairwise_reverse.2 h.sorted
    rw [List.pairwise_map, List.pairwise_map]
    exact Macro.inOrder_expands hexp hq

/-- The line feeds for line ends between two offsets come from places between these, in order. -/
theorem ordered_lineEnds (unit : Nat) {lo hi : Nat} {ends : List Nat}
    (h : Cursor.LineEnds text lo ends hi) :
    Ordered unit lo hi ((ends.map (Emission.lineEnd unit)).map Emission.piece) := by
  have last : ∀ o, (Emission.lineEnd unit o).piece.lastOffset = o := fun o => rfl
  refine ⟨h.le, ?_, ?_, ?_⟩
  · simp only [List.forall_mem_map]
    exact fun _ _ => rfl
  · simp only [List.forall_mem_map, last]
    exact fun o ho => ⟨(h.bounds o ho).1, Nat.le_of_lt (h.bounds o ho).2⟩
  · rw [List.pairwise_map, List.pairwise_map]
    exact h.sorted.imp fun hlt => Nat.le_of_lt hlt

/-! ## One step -/

/-- A directive line begins with a `#` and goes on in the text. -/
theorem AtDirective.placed {line : Directive.Line} {after : Cursor}
    (h : AtDirective f s s₁ line after) (hf : f.Placed s text) : after.In text ∧
      HasAt text f.cursor.location.offset "#" ∧
      Cursor.LineEnds text f.cursor.location.offset line.lineEnds after.location.offset := by
  obtain ⟨l, c, hn, hhash, hr⟩ := h.hash
  have reads := Cursor.reads_of_next hn
  obtain ⟨hin, hends⟩ := (Cursor.crosses_of_readLine hr).in (reads.in hf.cursor)
  refine ⟨hin, ?_, hends.mono (Nat.le_of_lt reads.offset_lt)⟩
  have htext : l.text = "#" := by
    rw [Lexeme.isPunct, Bool.and_eq_true, beq_iff_eq, beq_iff_eq] at hhash
    exact hhash.2
  exact htext ▸ hf.cursor.hasAt reads

/-- A frame with nothing waiting is placed where its cursor is in the text. -/
theorem Frame.Placed.afterLine (h : f.Placed s text) {c : Cursor} (hc : c.In text)
    (hunits : s.units.toList <+: s'.units.toList) : (f.afterLine c).Placed s' text := by
  refine ⟨?_, hc, fun t ht => absurd ht List.not_mem_nil, .nil,
    fun t ht => absurd ht List.not_mem_nil, fun hne => absurd rfl hne⟩
  rw [← Array.getElem?_toList]
  obtain ⟨more, hmore⟩ := hunits
  have hunit := h.unit
  rw [← Array.getElem?_toList] at hunit
  exact hmore ▸ List.getElem?_append_left (List.getElem?_eq_some_iff.1 hunit).1 ▸ hunit

/-- A frame stays placed over a lexeme that waits. -/
theorem AtLexeme.placed_token {l : Lexeme} {c : Cursor} (h : AtLexeme f s l c)
    (hf : f.Placed s text) (active : s.isActive = true) :
    (f.afterToken l c).Placed s text ∧ (f.afterToken l c).mark = f.mark := by
  have reads := Cursor.reads_of_next h.next
  have hoffset := reads.offset
  refine ⟨⟨hf.unit, reads.in hf.cursor, ?_, ?_, ?_, fun _ => active⟩, ?_⟩
  · exact List.forall_mem_cons.2 ⟨⟨rfl, rfl, hf.cursor.hasAt reads⟩, hf.hasAt⟩
  · exact List.pairwise_cons.2 ⟨fun t ht => hf.before t ht, hf.sorted⟩
  · refine List.forall_mem_cons.2 ⟨?_, fun t ht => ?_⟩
    · show f.cursor.location.offset + (l.text.utf8ByteSize - 1) ≤ c.location.offset
      omega
    · exact Nat.le_trans (hf.before t ht) (Nat.le_of_lt reads.offset_lt)
  · have hw : (f.afterToken l c).waiting = f.token l :: f.waiting := rfl
    rw [Frame.mark, Frame.mark, hw, List.getLast?_cons]
    cases f.waiting.getLast? with
    | none => rfl
    | some first => rfl

/-- A frame stays placed over a lexeme that is dropped. -/
theorem AtLexeme.placed_dropped {l : Lexeme} {c : Cursor} (h : AtLexeme f s l c)
    (hf : f.Placed s text) (inactive : s.isActive = false) (hunits : s'.units = s.units) :
    (f.afterLexeme l c).Placed s' text ∧ f.mark = f.cursor.location.offset ∧
      (f.afterLexeme l c).mark = c.location.offset ∧ f.mark < c.location.offset := by
  have reads := Cursor.reads_of_next h.next
  have hw : f.waiting = [] := hf.waiting_eq_nil inactive
  have hw' : (f.afterLexeme l c).waiting = [] := hw
  refine ⟨⟨hunits ▸ hf.unit, reads.in hf.cursor, ?_, ?_, ?_, fun hne => absurd hw' hne⟩,
    f.mark_of_waiting_nil hw, Frame.mark_of_waiting_nil hw', ?_⟩
  · exact fun t ht => absurd (hw' ▸ ht) List.not_mem_nil
  · rw [hw']
    exact .nil
  · exact fun t ht => absurd (hw' ▸ ht) List.not_mem_nil
  · rw [f.mark_of_waiting_nil hw]
    exact reads.offset_lt

/-- **A step that goes on puts out, for reasons listed, pieces from places between the marks.** -/
theorem placed_next (hf : f.Placed s text) (h : step env f s = (.next f', s')) :
    f'.Placed s' text ∧ ∃ es, s.Adds es s' ∧ (∀ e ∈ es, Gives f s e) ∧
      Ordered f.unit f.mark f'.mark (es.map Emission.piece) := by
  cases step_cases h with
  | @directive s₁ s₂ line after reads handle =>
    obtain ⟨hin, hhash, hends⟩ := reads.placed hf
    obtain ⟨tokens, hexpand, hadds⟩ := adds_flush reads.flush
    have hunits := ((samePlace_flush reads.flush).trans (samePlace_handle handle)).trans
      (.emitLineEnds s₂ f.unit line.lineEnds)
    refine ⟨hf.afterLine hin (hunits.units ▸ List.prefix_refl _), ?_⟩
    have tokensOrdered := hf.ordered_tokens hexpand
    have endsOrdered := ordered_lineEnds f.unit hends
    have hmark := Frame.mark_of_waiting_nil (f := f.afterLine after) rfl
    rcases adds_handle handle with hnone | ⟨passed, rest, hparse, hpassed⟩
    · refine ⟨_, (hadds.trans hnone).trans (State.adds_emitLineEnds _ _ _), ?_, ?_⟩
      · rw [List.append_nil]
        exact List.forall_mem_append.2 ⟨gives_token hexpand, gives_lineEnds reads⟩
      · rw [List.append_nil, List.map_append, hmark]
        exact tokensOrdered.append endsOrdered
    · refine ⟨_, (hadds.trans hpassed).trans (State.adds_emitLineEnds _ _ _), ?_, ?_⟩
      · refine List.forall_mem_append.2 ⟨List.forall_mem_append.2 ⟨gives_token hexpand, ?_⟩,
          gives_lineEnds reads⟩
        exact List.forall_mem_singleton.2 (.passed reads hparse)
      · rw [List.map_append, List.map_append, hmark]
        refine (tokensOrdered.append (.singleton rfl ?_ ?_)).append endsOrdered
        · exact Nat.le_refl f.cursor.location.offset
        · exact Nat.le_refl f.cursor.location.offset
  | token reads active =>
    obtain ⟨hplaced, hmark⟩ := reads.placed_token hf active
    exact ⟨hplaced, [], State.adds_nil rfl, fun e he => absurd he List.not_mem_nil,
      .nil (Nat.le_of_eq hmark.symm)⟩
  | skippedLineEnd reads inactive newline =>
    have hunits : (s.emitLineEnd f.unit f.origin.offset).units = s.units := rfl
    obtain ⟨hplaced, hmark, hmark', hlt⟩ := reads.placed_dropped hf inactive hunits
    refine ⟨hplaced, _, State.adds_emit _ _, ?_, .singleton rfl ?_ ?_⟩
    · exact List.forall_mem_singleton.2 (.dropped reads inactive newline)
    · exact Nat.le_of_eq hmark
    · show f.cursor.location.offset ≤ _
      omega
  | skipped reads inactive =>
    obtain ⟨hplaced, -, hmark', hlt⟩ := reads.placed_dropped hf inactive rfl
    exact ⟨hplaced, [], State.adds_nil rfl, fun e he => absurd he List.not_mem_nil,
      .nil (by omega)⟩

/-- What is put out by a step that asks for a text, and after that text. -/
theorem placed_splice {i : Inclusion} {ends : List Nat} (hf : f.Placed s text)
    (h : step env f s = (.splice i ends f', s')) :
    (∀ t : State, s'.units.toList <+: t.units.toList → f'.Placed t text) ∧
      (∀ e ∈ ends.map (Emission.lineEnd f.unit), Gives f s e) ∧
      ∃ es mid, s.Adds es s' ∧ (∀ e ∈ es, Gives f s e) ∧
        Ordered f.unit f.mark mid (es.map Emission.piece) ∧
        Ordered f.unit mid f'.mark ((ends.map (Emission.lineEnd f.unit)).map Emission.piece) := by
  cases step_cases h with
  | splice reads handle =>
    obtain ⟨hin, hhash, hends⟩ := reads.placed hf
    obtain ⟨tokens, hexpand, hadds⟩ := adds_flush reads.flush
    refine ⟨fun t ht => hf.afterLine hin ?_, gives_lineEnds reads, _, f.cursor.location.offset,
      hadds, gives_token hexpand, hf.ordered_tokens hexpand, ?_⟩
    · rwa [← (samePlace_flush reads.flush).units]
    · rw [Frame.mark_of_waiting_nil (f := f.afterLine _) rfl]
      exact ordered_lineEnds _ hends

/-- What is put out by the step at the end of a unit. -/
theorem placed_finished (hf : f.Placed s text) (h : step env f s = (.finished, s')) :
    ∃ es, s.Adds es s' ∧ (∀ e ∈ es, Gives f s e) ∧
      Ordered f.unit f.mark f.cursor.location.offset (es.map Emission.piece) := by
  cases step_cases h with
  | finish _ flush =>
    obtain ⟨tokens, hexpand, hadds⟩ := adds_flush flush
    exact ⟨_, hadds, gives_token hexpand, hf.ordered_tokens hexpand⟩

end Preprocess

end ShaderPass
