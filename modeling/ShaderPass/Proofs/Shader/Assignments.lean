import ShaderPass.Proofs.RenderState
import ShaderPass.Proofs.Shader.Layout

/-!
# Proofs/Shader/Assignments — what the assignments in a pass come to

    RasterState { CullMode = mode; }  RasterState { CullMode = CullMode.Off; }   CullMode ↦ Off
    RenderQueueType = 3000;  BlendState { Enabled[1] = true }                    3 states

A pass can assign states in any number of blocks, and in items of their own, and tags in any number of
blocks as well; a sub-shader has tags too.  The grammar puts the assignments in the order in which
they stand in the text, and of those with one key the last counts (`last_assignment_of_parse`).
-/

namespace ShaderPass

/-- Whether a key is for a render target other than the first only if its element is set for each
target on its own. -/
def StateKey.IsTargeted (key : StateKey) : Prop := key.target ≠ 0 → key.element.isPerTarget = true

namespace Shader

open Grammar

variable {R : Rules} {ts rest : List Token} {text : String}

/-! ## The assignments of a block, in source order -/

/-- The states that a pass assigns, in the order in which they stand in it. -/
def Pass.assignments (p : Pass) : List StateEntry := p.items.flatMap (·.stateEntries)

/-- The tags that a pass assigns, in the order in which they stand in it. -/
def Pass.tagAssignments (p : Pass) : List TagEntry := p.items.flatMap (·.tagEntries)

/-- The tags that a sub-shader assigns, in the order in which they stand in it. -/
def SubShader.tagAssignments (s : SubShader) : List TagEntry := s.items.flatMap (·.tagEntries)

/-! ## Render targets -/

theorem Grammar.Target.isPerTarget {element : StateElement} {n : Nat}
    (h : Target element ts n rest) (hn : n ≠ 0) : element.isPerTarget = true := by
  cases h with
  | absent => exact absurd rfl hn
  | index _ _ perTarget => exact perTarget

theorem Grammar.StateList.isTargeted {block : StateBlock} {es : List StateEntry}
    (h : StateList R block ts es rest) : ∀ e ∈ es, e.1.IsTargeted := by
  induction h with
  | close => exact List.forall_mem_nil _
  | entry _ _ target _ _ _ _ ih => exact List.forall_mem_cons.2 ⟨target.isPerTarget, ih⟩

theorem Grammar.Item.isTargeted {i : PassItem} (h : Item R ts i rest) :
    ∀ e ∈ i.stateEntries, e.1.IsTargeted := by
  cases h with
  | tags | stage | shared => exact List.forall_mem_nil _
  | states _ entries =>
    obtain ⟨_, entries⟩ := entries
    exact entries.isTargeted
  | queue _ entry =>
    obtain ⟨_, _, _⟩ := entry
    exact List.forall_mem_singleton.2 fun hn => absurd rfl hn

/-- **Only an element that is set for each target is assigned for another target than the first.** -/
theorem Grammar.PassBlock.isTargeted {p : Pass} (h : PassBlock R ts p rest) :
    ∀ e ∈ p.assignments, e.1.IsTargeted := by
  intro e he
  obtain ⟨i, hi, he⟩ := List.mem_flatMap.1 he
  obtain ⟨us, after, -, item⟩ := h.exists_item i hi
  exact item.isTargeted e he

/-! ## The last assignment -/

/-- In a pass, of the assignments to one key, and of those to one tag, the last counts. -/
structure Pass.LastCounts (p : Pass) : Prop where
  /-- No key has both a constant and a variable. -/
  exclusive : p.states.Exclusive
  state : ∀ key, p.states.get? key = lastValue? p.assignments key
  /-- There are as many states as there are different keys. -/
  size : p.states.size = (p.assignments.map (·.1)).dedup.length
  targeted : ∀ key, (p.states.get? key).isSome = true → key.IsTargeted
  tag : ∀ name, p.tags.get? name = lastValue? p.tagAssignments name

theorem Grammar.PassBlock.lastCounts {p : Pass} (h : PassBlock R ts p rest) : p.LastCounts := by
  refine ⟨States.exclusive_ofList _, States.get?_ofList _, States.size_ofList _, ?_,
    Dictionary.get?_ofList _⟩
  intro key assigned
  rw [Pass.states, States.get?_ofList, isSome_lastValue?] at assigned
  obtain ⟨e, he, rfl⟩ := List.mem_map.1 assigned
  exact h.isTargeted e he

/-- **The last assignment counts in every pass of an accepted text**, over all its blocks and items in
the order in which they stand in the text: the states are those of one map, in which a key has the
value that was assigned to it last, be it a constant or a variable, and none if none was; a key for
another render target than the first has an element that is set for each.  The tags of passes and of
sub-shaders are those assigned last, too. -/
theorem last_assignment_of_parse {map : Source.Map} {tree : Tree}
    (h : (parse text map).result = .ok tree) :
    ∃ ts, tokenize text = .ok ts ∧ ∀ s ∈ tree.subShaders,
      (∃ us after, us <:+ ts ∧ SubShaderBlock .lenient us s after) ∧
      (∀ name, s.tags.get? name = lastValue? s.tagAssignments name) ∧
      ∀ p ∈ s.passes, (∃ us after, us <:+ ts ∧ PassBlock .lenient us p after) ∧ p.LastCounts := by
  obtain ⟨ts, htokens, hfile⟩ := file_of_parse h
  obtain ⟨us, after, hsuffix, subShaders⟩ := hfile.exists_subShaders
  refine ⟨ts, htokens, fun s hs => ?_⟩
  obtain ⟨vs, after', hsuffix', subShader⟩ := subShaders.exists_subShader s hs
  have hsub := hsuffix'.trans hsuffix
  refine ⟨⟨vs, after', hsub, subShader⟩, Dictionary.get?_ofList _, fun p hp => ?_⟩
  obtain ⟨ws, after'', hsuffix'', pass⟩ := subShader.exists_pass p hp
  exact ⟨⟨ws, after'', hsuffix''.trans hsub, pass⟩, pass.lastCounts⟩

/-- A state that is a variable in one block and a constant in the next. -/
theorem last_assignment_of_parse_apply : ∃ p : Pass,
    (parse "SubShader{Pass{RasterState{CullMode=m}RasterState{CullMode=true}}}"
      default).result = .ok ⟨none, [⟨none, [.pass p], ⟨0, 66⟩⟩]⟩ ∧
      p.states.get? ⟨.cullMode, 0⟩ = some (.constant (.bool true)) ∧ p.states.size = 1 := by
  let p : Pass := ⟨none, [.states [(⟨.cullMode, 0⟩, .variable "m")],
    .states [(⟨.cullMode, 0⟩, .constant (.bool true))]], ⟨10, 65⟩⟩
  have reads : (parse
      "SubShader{Pass{RasterState{CullMode=m}RasterState{CullMode=true}}}"
      default).result = .ok ⟨none, [⟨none, [.pass p], ⟨0, 66⟩⟩]⟩ := by cbv
  obtain ⟨_, -, subShaders⟩ := last_assignment_of_parse reads
  obtain ⟨-, -, passes⟩ := subShaders _ (List.mem_singleton_self _)
  obtain ⟨-, last⟩ := passes p (List.mem_singleton_self _)
  exact ⟨p, reads, last.state _, last.size⟩

end Shader

end ShaderPass
