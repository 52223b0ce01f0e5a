import Mathlib.Logic.Relation
import ShaderPass.Proofs.Shader.Choices

/-!
# Proofs/Shader/StatePlaces — where in a file the values of states stand

    file ──▸ subShaders ──▸ subShaderItems ──▸ items ──▸ states ──▸ value
              ╰─▴            ╰─▴                ╰─▴       ╰─▴

A part of a file goes on after each of its items, or leads into the part that the item is made of
(`LeadsOn`).  The places of values are those that a file leads to in this way; what stands in opaque
text is none.  A derivation by some rules is one by others as soon as the values at these places are
values by both (`File.of_valuesAgree`), and nothing else in a file asks for a number.
-/

namespace ShaderPass.Shader.Grammar

variable {R R' : Rules} {ts ts' us rest : List Token}

/-! ## Places -/

/-- The parts of a file that lead to the value of a state. -/
inductive Part
  | file
  | subShaders
  | subShaderItems
  | items
  | states (block : StateBlock)
  | value

/-- Where one part of a file **leads on** to another: past an item of it, or into one. -/
inductive LeadsOn (R : Rules) : Part → List Token → Part → List Token → Prop
  | plain {ts : List Token} {ss : List SubShader} (subShaders : SubShaders R ts ss [])
      (nonempty : ss ≠ []) : LeadsOn R .file ts .subShaders ts
  | block {ds ts : List Token} {k name o : Token} (before : ∀ d ∈ ds, d.kind = .directive)
      (key : k.keyword? = some .shader) (string : name.kind = .string)
      (opening : o.isPunct '{' = true) :
      LeadsOn R .file (ds ++ k :: name :: o :: ts) .subShaders ts
  | pastOuterDirective {d : Token} {ts : List Token} (directive : d.kind = .directive) :
      LeadsOn R .subShaders (d :: ts) .subShaders ts
  | pastSubShader {ts ts' : List Token} {s : SubShader} (subShader : SubShaderBlock R ts s ts') :
      LeadsOn R .subShaders ts .subShaders ts'
  | intoSubShader {k o : Token} {ts ts' : List Token} {name : Option String}
      (key : k.keyword? = some .subShader) (named : Name ts name (o :: ts'))
      (opening : o.isPunct '{' = true) : LeadsOn R .subShaders (k :: ts) .subShaderItems ts'
  | pastDirective {d : Token} {ts : List Token} (directive : d.kind = .directive) :
      LeadsOn R .subShaderItems (d :: ts) .subShaderItems ts
  | pastTags {k : Token} {ts ts' : List Token} {es : List TagEntry} (key : k.keyword? = some .tags)
      (entries : TagBlock R ts es ts') : LeadsOn R .subShaderItems (k :: ts) .subShaderItems ts'
  | pastPass {ts ts' : List Token} {p : Pass} (pass : PassBlock R ts p ts') :
      LeadsOn R .subShaderItems ts .subShaderItems ts'
  | intoPass {k o : Token} {ts ts' : List Token} {name : Option String}
      (key : k.keyword? = some .pass) (named : Name ts name (o :: ts'))
      (opening : o.isPunct '{' = true) : LeadsOn R .subShaderItems (k :: ts) .items ts'
  | pastItem {ts ts' : List Token} {i : PassItem} (item : Item R ts i ts') :
      LeadsOn R .items ts .items ts'
  | intoStates {k o : Token} {ts : List Token} {block : StateBlock}
      (key : k.keyword? = some block.keyword) (opening : o.isPunct '{' = true) :
      LeadsOn R .items (k :: o :: ts) (.states block) ts
  | intoQueue {k eq : Token} {ts : List Token} (key : k.keyword? = some .renderQueueType)
      (equals : eq.isPunct '=' = true) : LeadsOn R .items (k :: eq :: ts) .value ts
  | pastEntry {t eq : Token} {ts ts' ts'' ts''' : List Token} {block : StateBlock}
      {element : StateElement} {n : Nat} {v : StateValue} (name : t.isWord = true)
      (key : StateElement.lookup? block t.text = some element)
      (target : Target element ts n (eq :: ts')) (equals : eq.isPunct '=' = true)
      (value : StateText R ts' v ts'') (separator : Separator R [';', ','] ts'' ts''') :
      LeadsOn R (.states block) (t :: ts) (.states block) ts'''
  | intoEntry {t eq : Token} {ts ts' : List Token} {block : StateBlock} {element : StateElement}
      {n : Nat} (name : t.isWord = true) (key : StateElement.lookup? block t.text = some element)
      (target : Target element ts n (eq :: ts')) (equals : eq.isPunct '=' = true) :
      LeadsOn R (.states block) (t :: ts) .value ts'

/-- Whether a part leads to a place where the value of a state stands. -/
def ValueAt (R : Rules) (part : Part) (ts us : List Token) : Prop :=
  Relation.ReflTransGen (fun x y : Part × List Token => LeadsOn R x.1 x.2 y.1 y.2)
    (part, ts) (.value, us)

theorem ValueAt.head {part part' : Part} (step : LeadsOn R part ts part' ts')
    (h : ValueAt R part' ts' us) : ValueAt R part ts us :=
  Relation.ReflTransGen.head step h

/-- What a part leads on to are its last tokens. -/
theorem LeadsOn.suffix {part part' : Part} (h : LeadsOn R part ts part' ts') : ts' <:+ ts := by
  cases h with
  | plain => exact List.suffix_refl _
  | @block ds _ k name o => exact ⟨ds ++ [k, name, o], by simp⟩
  | pastOuterDirective | pastDirective => exact List.suffix_cons _ _
  | pastSubShader subShader => exact subShader.suffix
  | intoSubShader _ named | intoPass _ named =>
    exact ((List.suffix_cons _ _).trans named.suffix).trans (List.suffix_cons _ _)
  | pastTags _ entries => exact entries.suffix.trans (List.suffix_cons _ _)
  | pastPass pass => exact pass.suffix
  | pastItem item => exact item.suffix
  | intoStates | intoQueue => exact List.suffix_append [_, _] _
  | pastEntry _ _ target _ value separator =>
    refine ((separator.suffix.trans value.suffix).trans ?_).trans (List.suffix_cons _ _)
    exact (List.suffix_cons _ _).trans target.suffix
  | intoEntry _ _ target =>
    exact ((List.suffix_cons _ _).trans target.suffix).trans (List.suffix_cons _ _)

/-- The value of a state stands somewhere in the tokens that lead to it. -/
theorem ValueAt.suffix {part : Part} (h : ValueAt R part ts us) : us <:+ ts := by
  have suffix : ∀ x : Part × List Token,
      Relation.ReflTransGen (fun x y => LeadsOn R x.1 x.2 y.1 y.2) x (.value, us) → us <:+ x.2 := by
    intro x h
    induction h using Relation.ReflTransGen.head_induction_on with
    | refl => exact List.suffix_refl _
    | head step _ ih => exact ih.trans step.suffix
  exact suffix _ h

/-! ## From rules to rules -/

/-- Whether what is a value by some rules is one by others, wherever a part leads to a value. -/
def ValuesAgree (R R' : Rules) (part : Part) (ts : List Token) : Prop :=
  ∀ us, ValueAt R part ts us → ∀ v rest, StateText R us v rest → StateText R' us v rest

namespace ValuesAgree

theorem step {part part' : Part} (h : ValuesAgree R R' part ts)
    (step : LeadsOn R part ts part' ts') : ValuesAgree R R' part' ts' :=
  fun us hus => h us (.head step hus)

theorem apply {v : StateValue} (h : ValuesAgree R R' .value ts) (value : StateText R ts v rest) :
    StateText R' ts v rest := h ts .refl v rest value

/-- Values agree where the tokens that count for numbers do. -/
theorem of_numbersAgree {part : Part} (hg : R'.greedy → R.greedy) (h : NumbersAgree R R' ts) :
    ValuesAgree R R' part ts :=
  fun _ hus _ _ value => value.mono hg (h.of_suffix hus.suffix)

end ValuesAgree

/-- Entries of states: each value is a place that the block leads into. -/
theorem StateList.of_valuesAgree {block : StateBlock} {es : List StateEntry}
    (hg : R'.greedy → R.greedy) (h : StateList R block ts es rest)
    (hv : ValuesAgree R R' (.states block) ts) : StateList R' block ts es rest := by
  induction h with
  | close closing => exact .close closing
  | entry name key target equals value separator _ ih =>
    have hvalue := (hv.step (.intoEntry name key target equals)).apply value
    exact .entry name key target equals hvalue (separator.mono hg)
      (ih (hv.step (.pastEntry name key target equals value separator)))

/-- Of the items of a pass, blocks of states and render queues lead to values; no other asks for
one. -/
theorem Item.of_valuesAgree {i : PassItem} (hg : R'.greedy → R.greedy) (h : Item R ts i rest)
    (hv : ValuesAgree R R' .items ts) : Item R' ts i rest := by
  obtain ⟨key, entries⟩ | ⟨key, entries⟩ | ⟨key, entry⟩ | ⟨key, given⟩ | ⟨key, run, ends⟩ := h
  · exact .tags key (entries.mono hg)
  · obtain ⟨opening, entries⟩ := entries
    have hentries := entries.of_valuesAgree hg (hv.step (.intoStates key opening))
    exact .states key (.intro opening hentries)
  · obtain ⟨equals, value, separator⟩ := entry
    have hvalue := (hv.step (.intoQueue key equals)).apply value
    exact .queue key (.intro equals hvalue (separator.mono hg))
  · exact .stage key (given.mono hg)
  · exact .shared key run ends

/-- Items of a pass lead on to one another. -/
theorem ItemList.of_valuesAgree {is : List PassItem} {stop : Nat} (hg : R'.greedy → R.greedy)
    (h : ItemList R ts is stop rest) (hv : ValuesAgree R R' .items ts) :
    ItemList R' ts is stop rest := by
  induction h with
  | close closing => exact .close closing
  | item item _ ih => exact .item (item.of_valuesAgree hg hv) (ih (hv.step (.pastItem item)))

theorem PassBlock.of_valuesAgree {p : Pass} (hg : R'.greedy → R.greedy) (h : PassBlock R ts p rest)
    (hv : ValuesAgree R R' .subShaderItems ts) : PassBlock R' ts p rest := by
  obtain ⟨key, named, opening, items⟩ := h
  exact .intro key named opening
    (items.of_valuesAgree hg (hv.step (.intoPass key named opening)))

/-- Items of a sub-shader lead on to one another. -/
theorem SubShaderItems.of_valuesAgree {is : List SubShaderItem} {stop : Nat}
    (hg : R'.greedy → R.greedy) (h : SubShaderItems R ts is stop rest)
    (hv : ValuesAgree R R' .subShaderItems ts) : SubShaderItems R' ts is stop rest := by
  induction h with
  | close closing => exact .close closing
  | directive directive _ ih => exact .directive directive (ih (hv.step (.pastDirective directive)))
  | tags key entries _ ih =>
    exact .tags key (entries.mono hg) (ih (hv.step (.pastTags key entries)))
  | pass pass _ ih => exact .pass (pass.of_valuesAgree hg hv) (ih (hv.step (.pastPass pass)))

theorem SubShaderBlock.of_valuesAgree {s : SubShader} (hg : R'.greedy → R.greedy)
    (h : SubShaderBlock R ts s rest) (hv : ValuesAgree R R' .subShaders ts) :
    SubShaderBlock R' ts s rest := by
  obtain ⟨key, named, opening, items, span, passes⟩ := h
  have hitems := items.of_valuesAgree hg (hv.step (.intoSubShader key named opening))
  exact .intro key named opening hitems span passes

theorem SubShaders.of_valuesAgree {ss : List SubShader} (hg : R'.greedy → R.greedy)
    (h : SubShaders R ts ss rest) (hv : ValuesAgree R R' .subShaders ts) :
    SubShaders R' ts ss rest := by
  induction h with
  | nil => exact .nil
  | directive directive _ ih =>
    exact .directive directive (ih (hv.step (.pastOuterDirective directive)))
  | subShader subShader _ ih =>
    exact .subShader (subShader.of_valuesAgree hg hv) (ih (hv.step (.pastSubShader subShader)))

/-- **A derivation stands by all rules that agree with its own on the values of states**, if items
may end earlier by them or end where they did. -/
theorem File.of_valuesAgree {tree : Tree} (hg : R'.greedy → R.greedy) (h : File R ts tree)
    (hv : ValuesAgree R R' .file ts) : File R' ts tree := by
  obtain ⟨subShaders, nonempty⟩ |
    ⟨before, key, string, opening, subShaders, nonempty, closing, after⟩ := h
  · exact .plain (subShaders.of_valuesAgree hg (hv.step (.plain subShaders nonempty))) nonempty
  · have hsubShaders := subShaders.of_valuesAgree hg (hv.step (.block before key string opening))
    exact .block before key string opening hsubShaders nonempty closing after

/-- **A derivation stands where items may end earlier and more tokens count for numbers.** -/
theorem File.mono {tree : Tree} (hg : R'.greedy → R.greedy) (hn : NumbersAgree R R' ts)
    (h : File R ts tree) : File R' ts tree :=
  h.of_valuesAgree hg (.of_numbersAgree hg hn)

end ShaderPass.Shader.Grammar
