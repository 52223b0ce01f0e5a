import ShaderPass.Proofs.Shader.Blocks
import ShaderPass.Proofs.Shader.StatePlaces

/-!
# Proofs/Shader/Unambiguous — tokens derive in one way, and from one set of numbers

    ts ──derives──▸ tree             a reader gives one result at most,
     ╰──leads on──▸ places of values     so every derivation has the same places

Where items take all that can belong to them, a list of tokens derives one tree at most
(`File.unique`).  The derivations of its parts are unique as well, so a file that derives with
number tokens alone has no place where a number is read from another token (`File.not_readsOther`),
and one that derives with all that reads as a number, and has no such place, derives with number
tokens alone (`File.strict_of_not_readsOther`).
-/

namespace ShaderPass.Shader

namespace Grammar

variable {α : Type} {R : Rules} {ts ts' rest rest' : List Token} {tree tree' : Tree}

/-! ## One derivation -/

/-- A reading gives one value and leaves the same tokens. -/
theorem eq_of_gives {r : Except Error (Parsed α ts)} {a a' : α} (h : Gives r a rest)
    (h' : Gives r a' rest') : a = a' ∧ rest = rest' := by
  obtain ⟨p, hp, rfl, rfl⟩ := h
  obtain ⟨q, hq, rfl, rfl⟩ := h'
  obtain rfl := Except.ok.inj (hp.symm.trans hq)
  exact ⟨rfl, rfl⟩

/-- A place that no failure is reported for. -/
private def nowhere : Place := ⟨fun _ => .unknown, 0⟩

/-- Tags leave the same tokens by all derivations. -/
theorem TagBlock.unique {es es' : List TagEntry} (h : TagBlock .lenient ts es rest)
    (h' : TagBlock .lenient ts es' rest') : rest = rest' :=
  (eq_of_gives (r := readTags nowhere ts) (gives_readTags.2 h) (gives_readTags.2 h')).2

/-- **The value of a state derives in one way.** -/
theorem StateText.unique {v v' : StateValue} (h : StateText .lenient ts v rest)
    (h' : StateText .lenient ts v' rest') : v = v' ∧ rest = rest' :=
  eq_of_gives (r := readStateValue nowhere ts) (gives_readStateValue.2 h)
    (gives_readStateValue.2 h')

/-- A target is seen from whether a bracket follows its key. -/
theorem Target.unique {element element' : StateElement} {n n' : Nat} {eq eq' : Token}
    (h : Target element ts n (eq :: rest)) (equals : eq.isPunct '=' = true)
    (h' : Target element' ts n' (eq' :: rest')) (equals' : eq'.isPunct '=' = true) :
    rest = rest' := by
  have noBracket {t : Token} (h : t.isPunct '=' = true) : ¬t.isPunct '[' = true := by
    simp [Token.isPunct_eq_false_of_ne h (show '=' ≠ '[' by decide)]
  rcases h with _ | ⟨opening, _, _, _⟩
  · rcases h' with _ | ⟨opening, _, _, _⟩
    · rfl
    · exact absurd opening (noBracket equals)
  · rcases h' with _ | _
    · exact absurd opening (noBracket equals')
    · rfl

theorem Separator.unique {c d : Char} (h : Separator .lenient [c, d] ts rest)
    (h' : Separator .lenient [c, d] ts rest') : rest = rest' :=
  (separator_either_iff.1 h).symm.trans (separator_either_iff.1 h')

/-- **An item of a pass derives in one way.** -/
theorem Item.unique {i i' : PassItem} (h : Item .lenient ts i rest)
    (h' : Item .lenient ts i' rest') : i = i' ∧ rest = rest' := by
  obtain ⟨t, us, rfl, -, hi⟩ := gives_readPassItem h nowhere []
  obtain ⟨t', us', heq, -, hi'⟩ := gives_readPassItem h' nowhere []
  obtain ⟨rfl, rfl⟩ := List.cons.inj heq
  exact eq_of_gives hi hi'

theorem PassBlock.unique {p p' : Pass} (h : PassBlock .lenient ts p rest)
    (h' : PassBlock .lenient ts p' rest') : p = p' ∧ rest = rest' := by
  obtain ⟨k, us, rfl, key⟩ := keyword?_of_passBlock h
  exact eq_of_gives (r := (readPass nowhere k us).result) ((gives_readPass key).2 h)
    ((gives_readPass key).2 h')

theorem SubShaderBlock.unique {s s' : SubShader} (h : SubShaderBlock .lenient ts s rest)
    (h' : SubShaderBlock .lenient ts s' rest') : s = s' ∧ rest = rest' := by
  obtain ⟨k, us, rfl, key⟩ := keyword?_of_subShaderBlock h
  exact eq_of_gives (r := (readSubShader nowhere k us).result) ((gives_readSubShader key).2 h)
    ((gives_readSubShader key).2 h')

/-- The tokens after the name of a block, which may be missing. -/
theorem Name.unique {name name' : Option String} {o o' : Token} (h : Name ts name (o :: rest))
    (opening : o.isPunct '{' = true) (h' : Name ts name' (o' :: rest'))
    (opening' : o'.isPunct '{' = true) : rest = rest' :=
  (List.cons.inj ((optionalName_eq h opening).2.symm.trans (optionalName_eq h' opening').2)).2

/-! ## One tree -/

/-- What counts for a number by the strict rules does so by the lenient ones. -/
theorem numbersAgree_strict_lenient (ts : List Token) : NumbersAgree .strict .lenient ts :=
  numbersAgree_of_forall fun _ _ _ _ => trivial

theorem valuesAgree_strict_lenient {part : Part} : ValuesAgree .strict .lenient part ts :=
  .of_numbersAgree (fun _ => trivial) (numbersAgree_strict_lenient ts)

/-- A file that derives with number tokens derives with all that reads as a number. -/
theorem File.lenient (h : File .strict ts tree) : File .lenient ts tree :=
  h.mono (fun _ => trivial) (numbersAgree_strict_lenient ts)

/-- **Tokens derive one tree at most**, if items take all that can belong to them. -/
theorem File.unique (h : File .strict ts tree) (h' : File .strict ts tree') : tree = tree' := by
  have parsed {tree : Tree} (h : File .strict ts tree) :
      (readTokens nowhere ts).result = .ok tree :=
    readTokens_eq_ok h.lenient
  exact Except.ok.inj ((parsed h).symm.trans (parsed h'))

/-! ## All derivations have the same places -/

/-- Whether tokens derive as a part of a file, up to what can end the part. -/
def Derives (R : Rules) : Part → List Token → Prop
  | .file, ts => ∃ tree, File R ts tree
  | .subShaders, ts => ∃ enclosed ss rest, SubShaders R ts ss rest ∧ EndsFile enclosed rest
  | .subShaderItems, ts => ∃ is stop rest, SubShaderItems R ts is stop rest
  | .items, ts => ∃ is stop rest, ItemList R ts is stop rest
  | .states block, ts => ∃ es rest, StateList R block ts es rest
  | .value, ts => ∃ v rest, StateText R ts v rest

/-- A list of tokens does not both begin with a directive and with a token of another kind. -/
theorem not_directive_of_keyword? {t : Token} {k : Keyword} (directive : t.kind = .directive) :
    t.keyword? ≠ some k := fun key => by
  cases (Token.keyword?_eq_some_iff.1 key).symm.trans directive

theorem not_directive_of_isPunct {t : Token} {c : Char} (directive : t.kind = .directive) :
    ¬t.isPunct c = true := fun punct => by
  cases (Token.isPunct_iff.1 punct).symm.trans directive

theorem ne_of_isPunct {t : Token} {k : Keyword} {c : Char} (punct : t.isPunct c = true) :
    t.keyword? ≠ some k := fun key => by
  rw [Token.isPunct_eq_false_of_keyword? key] at punct
  cases punct

theorem keyword?_of_subShader {k : Token} {s : SubShader} (h : SubShaderBlock R (k :: ts) s rest) :
    k.keyword? = some .subShader := by
  obtain ⟨key, _, _, _, _, _⟩ := h
  exact key

theorem keyword?_of_pass {k : Token} {p : Pass} (h : PassBlock R (k :: ts) p rest) :
    k.keyword? = some .pass := by
  obtain ⟨key, _, _, _⟩ := h
  exact key

/-- An item that begins with the keyword of a block of states is one. -/
theorem Item.states_of_keyword? {k : Token} {block : StateBlock} {i : PassItem}
    (key : k.keyword? = some block.keyword) (h : Item R (k :: ts) i rest) :
    ∃ es, StateBlockText R block ts es rest := by
  cases h with
  | tags key' => cases block <;> cases key.symm.trans key'
  | @states _ _ _ block' _ key' entries =>
    have same : block = block' := by
      rw [← Option.some_inj, ← StateBlock.ofKeyword?_keyword block,
        ← StateBlock.ofKeyword?_keyword block', Option.some.inj (key.symm.trans key')]
    exact ⟨_, same ▸ entries⟩
  | queue key' => cases block <;> cases key.symm.trans key'
  | @stage _ _ _ kind _ key' => cases block <;> cases kind <;> cases key.symm.trans key'
  | shared noKeyword => cases key.symm.trans noKeyword

/-- An item that begins with the keyword of a render queue is one. -/
theorem Item.queue_of_keyword? {k : Token} {i : PassItem}
    (key : k.keyword? = some .renderQueueType) (h : Item R (k :: ts) i rest) :
    ∃ e, Queue R ts e rest := by
  cases h with
  | tags key' => cases key.symm.trans key'
  | @states _ _ _ block _ key' => cases block <;> cases key.symm.trans key'
  | queue _ entry => exact ⟨_, entry⟩
  | @stage _ _ _ kind _ key' => cases kind <;> cases key.symm.trans key'
  | shared noKeyword => cases key.symm.trans noKeyword

/-- The sub-shaders of a shader block. -/
theorem exists_subShaders_of_file {ds : List Token} {k name o : Token}
    (before : ∀ d ∈ ds, d.kind = .directive) (key : k.keyword? = some .shader)
    (h : File .strict (ds ++ k :: name :: o :: ts) tree) : Derives .strict .subShaders ts := by
  have hskip : (skipDirectives nowhere (ds ++ k :: name :: o :: ts)).2 = k :: name :: o :: ts := by
    rw [skipDirectives_append before, skipDirectives_of_keyword? key]
  generalize ds ++ k :: name :: o :: ts = us at h hskip
  rcases h with ⟨subShaders, nonempty⟩ |
    @⟨_, _, _, _, _, _, _, _, before', key', _, _, subShaders, _, closing, _⟩
  · have lenient := subShaders.of_valuesAgree (fun _ => trivial) valuesAgree_strict_lenient
    obtain ⟨k', us, hskip', key'⟩ := keyword?_of_subShaders nowhere lenient nonempty
    obtain ⟨rfl, -⟩ := List.cons.inj (hskip.symm.trans hskip')
    cases key.symm.trans key'
  · rw [skipDirectives_append before', skipDirectives_of_keyword? key'] at hskip
    obtain ⟨-, h⟩ := List.cons.inj hskip
    obtain ⟨-, h⟩ := List.cons.inj h
    obtain ⟨-, rfl⟩ := List.cons.inj h
    exact ⟨true, _, _, subShaders, _, _, rfl, closing⟩

/-- Sub-shaders: what derives begins with what the step goes past or into. -/
theorem derives_of_subShaders {part : Part} (h : Derives .strict .subShaders ts)
    (step : LeadsOn .lenient .subShaders ts part ts') : Derives .strict part ts' := by
  obtain ⟨enclosed, ss, rest, h, ends⟩ := h
  -- what derives and what is stepped over begin with one token, which leaves one step to each case
  cases h with
  | nil =>
    cases enclosed with
    | false =>
      obtain rfl : ts = [] := ends
      cases step with
      | pastSubShader subShader => cases subShader
    | true =>
      obtain ⟨c, us, rfl, closing⟩ := ends
      cases step with
      | pastOuterDirective directive => exact absurd closing (not_directive_of_isPunct directive)
      | pastSubShader subShader =>
        exact absurd (keyword?_of_subShader subShader) (ne_of_isPunct closing)
      | intoSubShader key => exact absurd key (ne_of_isPunct closing)
  | directive directive more =>
    cases step with
    | pastOuterDirective => exact ⟨enclosed, _, _, more, ends⟩
    | pastSubShader subShader =>
      exact absurd (keyword?_of_subShader subShader) (not_directive_of_keyword? directive)
    | intoSubShader key => exact absurd key (not_directive_of_keyword? directive)
  | subShader subShader more =>
    have lenient := subShader.of_valuesAgree (fun _ => trivial) valuesAgree_strict_lenient
    cases step with
    | pastOuterDirective directive =>
      exact absurd (keyword?_of_subShader lenient) (not_directive_of_keyword? directive)
    | pastSubShader other =>
      obtain ⟨-, rfl⟩ := other.unique lenient
      exact ⟨enclosed, _, _, more, ends⟩
    | intoSubShader _ named opening =>
      obtain ⟨_, named', opening', items, _, _⟩ := subShader
      obtain rfl := named.unique opening named' opening'
      exact ⟨_, _, _, items⟩

/-- Items of a sub-shader: directives, tags and passes are told apart by their first token. -/
theorem derives_of_subShaderItems {part : Part} (h : Derives .strict .subShaderItems ts)
    (step : LeadsOn .lenient .subShaderItems ts part ts') : Derives .strict part ts' := by
  obtain ⟨is, stop, rest, h⟩ := h
  cases h with
  | close closing =>
    cases step with
    | pastDirective directive => exact absurd closing (not_directive_of_isPunct directive)
    | pastTags key => exact absurd key (ne_of_isPunct closing)
    | pastPass pass => exact absurd (keyword?_of_pass pass) (ne_of_isPunct closing)
    | intoPass key => exact absurd key (ne_of_isPunct closing)
  | directive directive more =>
    cases step with
    | pastDirective => exact ⟨_, _, _, more⟩
    | pastTags key => exact absurd key (not_directive_of_keyword? directive)
    | pastPass pass =>
      exact absurd (keyword?_of_pass pass) (not_directive_of_keyword? directive)
    | intoPass key => exact absurd key (not_directive_of_keyword? directive)
  | tags key entries more =>
    cases step with
    | pastDirective directive => exact absurd key (not_directive_of_keyword? directive)
    | pastTags _ other =>
      obtain rfl := other.unique (entries.mono fun _ => trivial)
      exact ⟨_, _, _, more⟩
    | pastPass pass => cases key.symm.trans (keyword?_of_pass pass)
    | intoPass key' => cases key.symm.trans key'
  | pass pass more =>
    have lenient := pass.of_valuesAgree (fun _ => trivial) valuesAgree_strict_lenient
    cases step with
    | pastDirective directive =>
      exact absurd (keyword?_of_pass pass) (not_directive_of_keyword? directive)
    | pastTags key => cases key.symm.trans (keyword?_of_pass pass)
    | pastPass other =>
      obtain ⟨-, rfl⟩ := other.unique lenient
      exact ⟨_, _, _, more⟩
    | intoPass _ named opening =>
      obtain ⟨_, named', opening', items⟩ := pass
      obtain rfl := named.unique opening named' opening'
      exact ⟨_, _, _, items⟩

/-- Items of a pass: the one that is gone past is the first by every derivation. -/
theorem derives_of_items {part : Part} (h : Derives .strict .items ts)
    (step : LeadsOn .lenient .items ts part ts') : Derives .strict part ts' := by
  obtain ⟨is, stop, rest, h⟩ := h
  cases h with
  | close closing =>
    cases step with
    | pastItem item =>
      obtain ⟨_, _, h, noClosing, -⟩ := gives_readPassItem item nowhere []
      obtain ⟨rfl, -⟩ := List.cons.inj h
      rw [closing] at noClosing
      cases noClosing
    | intoStates key => exact absurd key (ne_of_isPunct closing)
    | intoQueue key => exact absurd key (ne_of_isPunct closing)
  | item item more =>
    have lenient := item.of_valuesAgree (fun _ => trivial) valuesAgree_strict_lenient
    cases step with
    | pastItem other =>
      obtain ⟨-, rfl⟩ := other.unique lenient
      exact ⟨_, _, _, more⟩
    | intoStates key =>
      obtain ⟨_, _, entries⟩ := item.states_of_keyword? key
      exact ⟨_, _, entries⟩
    | intoQueue key =>
      obtain ⟨_, _, value, _⟩ := item.queue_of_keyword? key
      exact ⟨_, _, value⟩

/-- Entries of states: the target and the value of the first are the same by every derivation. -/
theorem derives_of_states {part : Part} {block : StateBlock}
    (h : Derives .strict (.states block) ts)
    (step : LeadsOn .lenient (.states block) ts part ts') : Derives .strict part ts' := by
  obtain ⟨es, rest, h⟩ := h
  cases h with
  | close closing =>
    cases step with
    | pastEntry name => simp [Token.isPunct_eq_false_of_isWord name] at closing
    | intoEntry name => simp [Token.isPunct_eq_false_of_isWord name] at closing
  | entry _ _ target equals value separator more =>
    cases step with
    | pastEntry _ _ target' equals' value' separator' =>
      obtain rfl := target'.unique equals' target equals
      obtain ⟨-, rfl⟩ := value'.unique
        (value.mono (fun _ => trivial) (numbersAgree_strict_lenient _))
      obtain rfl := separator'.unique (separator.mono fun _ => trivial)
      exact ⟨_, _, more⟩
    | intoEntry _ _ target' equals' =>
      obtain rfl := target'.unique equals' target equals
      exact ⟨_, _, value⟩

/-- **Wherever the readers are led, a derivation goes on.** -/
theorem Derives.leadsOn {part part' : Part} (h : Derives .strict part ts)
    (step : LeadsOn .lenient part ts part' ts') : Derives .strict part' ts' := by
  cases part with
  | file =>
    obtain ⟨tree, file⟩ := h
    cases step with
    | plain subShaders nonempty =>
      obtain ⟨strict, -⟩ | ⟨before, key, _, _, _, _, _, _⟩ := file
      · exact ⟨false, _, _, strict, rfl⟩
      · obtain ⟨k, us, hskip, key'⟩ := keyword?_of_subShaders nowhere subShaders nonempty
        rw [skipDirectives_append before, skipDirectives_of_keyword? key] at hskip
        obtain ⟨rfl, -⟩ := List.cons.inj hskip
        cases key.symm.trans key'
    | block before key => exact exists_subShaders_of_file before key file
  | subShaders => exact derives_of_subShaders h step
  | subShaderItems => exact derives_of_subShaderItems h step
  | items => exact derives_of_items h step
  | states => exact derives_of_states h step
  | value => cases step

/-- **The value of a state derives wherever a part that derives leads to one.** -/
theorem Derives.valueAt {part : Part} {us : List Token} (h : Derives .strict part ts)
    (place : ValueAt .lenient part ts us) : ∃ v rest, StateText .strict us v rest := by
  have derives : ∀ x : Part × List Token,
      Relation.ReflTransGen (fun x y => LeadsOn .lenient x.1 x.2 y.1 y.2) x (.value, us) →
      Derives .strict x.1 x.2 → ∃ v rest, StateText .strict us v rest := by
    intro x hx
    induction hx using Relation.ReflTransGen.head_induction_on with
    | refl => exact id
    | head step _ ih => exact fun h => ih (h.leadsOn step)
  exact derives _ place h

/-! ## Numbers that are read from other tokens -/

/-- Whether a value of a state, or a component of its color, is **read from another token** than a
number token: it stands where the file has the value of a state, and is one only if all tokens that
read as a number count for numbers. -/
def ReadsOther (ts : List Token) : Prop :=
  ∃ us v rest, ValueAt .lenient .file ts us ∧ StateText .lenient us v rest ∧
    ¬StateText .strict us v rest

/-- **What derives with number tokens alone reads no number from another token.** -/
theorem File.not_readsOther (h : File .strict ts tree) : ¬ReadsOther ts := by
  rintro ⟨us, v, rest, place, value, noNumber⟩
  have derives : Derives .strict .file ts := ⟨tree, h⟩
  obtain ⟨v', rest', strict⟩ := derives.valueAt place
  obtain ⟨rfl, rfl⟩ := value.unique
    (strict.mono (fun _ => trivial) (numbersAgree_strict_lenient _))
  exact noNumber strict

/-- **What derives and reads no number from another token** derives with number tokens alone. -/
theorem File.strict_of_not_readsOther (h : File .lenient ts tree) (numbers : ¬ReadsOther ts) :
    File .strict ts tree := by
  refine h.of_valuesAgree (fun _ => trivial) fun us place v rest value => ?_
  by_contra noNumber
  exact numbers ⟨us, v, rest, place, value, noNumber⟩

end Grammar

end ShaderPass.Shader
