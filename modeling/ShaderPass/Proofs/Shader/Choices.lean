import Mathlib.Data.List.Chain
import ShaderPass.Proofs.Shader.Grammar

/-!
# Proofs/Shader/Choices — what the grammar leaves to choose, and what hangs on it

    free ◂── strict ──▸ lenient
                    ◂── where signs and colors hold number tokens only

The value of a state stays one when an item no longer has to take all that it can, and when more
tokens count for numbers (`StateText.mono`), and so do tags and stages, which ask for no numbers.
The only tokens that are asked about are those next to a sign, an opening parenthesis or a comma.
What is derived leaves the last tokens of those it is derived from (`Item.suffix`).
-/

namespace ShaderPass.Shader

namespace Grammar

variable {R R' : Rules} {ts rest : List Token}

/-! ## What is left are the last tokens -/

/-- A separator takes the first token or none. -/
theorem Separator.suffix {cs : List Char} (h : Separator R cs ts rest) : rest <:+ ts := by
  rcases h with _ | _
  · exact List.suffix_refl _
  · exact List.suffix_cons _ _

theorem Name.suffix {name : Option String} (h : Name ts name rest) : rest <:+ ts := by
  rcases h with _ | _
  · exact List.suffix_refl _
  · exact List.suffix_cons _ _

/-- The value of a tag is its first token, or a sign and the token after it. -/
theorem TagText.suffix {v : TagValue} (h : TagText ts v rest) : rest <:+ ts := by
  rcases h with _ | _ | _ | _
  · exact List.suffix_cons _ _
  · exact List.suffix_cons _ _
  · exact List.suffix_cons _ _
  · exact List.suffix_append [_, _] _

/-- Each entry leaves the tokens that the next one starts with, and the brace what is left of all.
-/
theorem TagList.suffix {es : List TagEntry} (h : TagList R ts es rest) : rest <:+ ts := by
  induction h with
  | close => exact List.suffix_cons _ _
  | entry _ _ value separator _ ih =>
    exact ((ih.trans separator.suffix).trans value.suffix).trans (List.suffix_append [_, _] _)

theorem TagBlock.suffix {es : List TagEntry} (h : TagBlock R ts es rest) : rest <:+ ts := by
  obtain ⟨_, entries⟩ := h
  exact entries.suffix.trans (List.suffix_cons _ _)

/-- A component of a color is a number or a sign and a number. -/
theorem Component.suffix {x : Number.Single} (h : Component R ts x rest) : rest <:+ ts := by
  rcases h with _ | _
  · exact List.suffix_cons _ _
  · exact List.suffix_append [_, _] _

theorem Components.suffix {xs : List Number.Single} (h : Components R ts xs rest) : rest <:+ ts := by
  induction h with
  | last number _ => exact (List.suffix_cons _ _).trans number.suffix
  | more number _ _ ih => exact (ih.trans (List.suffix_cons _ _)).trans number.suffix

/-- The value of a state takes at least one token, and what it takes stands first. -/
theorem StateText.suffix {v : StateValue} (h : StateText R ts v rest) : rest <:+ ts := by
  rcases h with _ | _ | _ | _ | ⟨_, _, _, xs⟩ | ⟨_, _, _, xs⟩ | _ | _
  · exact List.suffix_cons _ _
  · exact List.suffix_cons _ _
  · exact List.suffix_append [_, _] _
  · exact List.suffix_cons _ _
  · exact xs.suffix.trans (List.suffix_append [_, _] _)
  · exact xs.suffix.trans (List.suffix_append [_, _] _)
  · exact List.suffix_append [_, _, _] _
  · exact List.suffix_cons _ _

/-- A target takes nothing, or a number with its brackets. -/
theorem Target.suffix {element : StateElement} {n : Nat} (h : Target element ts n rest) :
    rest <:+ ts := by
  rcases h with _ | _
  · exact List.suffix_refl _
  · exact List.suffix_append [_, _, _] _

/-- As for tags, an entry at a time up to the brace. -/
theorem StateList.suffix {block : StateBlock} {es : List StateEntry}
    (h : StateList R block ts es rest) : rest <:+ ts := by
  induction h with
  | close => exact List.suffix_cons _ _
  | entry _ _ target _ value separator _ ih =>
    have hvalue := (ih.trans separator.suffix).trans value.suffix
    exact ((hvalue.trans (List.suffix_cons _ _)).trans target.suffix).trans (List.suffix_cons _ _)

theorem StateBlockText.suffix {block : StateBlock} {es : List StateEntry}
    (h : StateBlockText R block ts es rest) : rest <:+ ts := by
  obtain ⟨_, entries⟩ := h
  exact entries.suffix.trans (List.suffix_cons _ _)

theorem Queue.suffix {e : StateEntry} (h : Queue R ts e rest) : rest <:+ ts := by
  obtain ⟨_, value, separator⟩ := h
  exact (separator.suffix.trans value.suffix).trans (List.suffix_cons _ _)

/-- A stage goes up to the brace that closes its body, or to the separator after its entry point. -/
theorem StageForm.suffix {text : StageText} (h : StageForm R ts text rest) : rest <:+ ts := by
  obtain @⟨o, c, us, _, _, _, _⟩ | ⟨_, _, separator⟩ := h
  · exact ⟨o :: (us ++ [c]), by simp⟩
  · exact separator.suffix.trans (List.suffix_append [_, _] _)

/-- Whatever the kind of an item, it takes the tokens that stand first. -/
theorem Item.suffix {i : PassItem} (h : Item R ts i rest) : rest <:+ ts := by
  obtain ⟨_, entries⟩ | ⟨_, entries⟩ | ⟨_, entry⟩ | ⟨_, given⟩ | @⟨t, u, us, rest, _, _, _⟩ := h
  · exact entries.suffix.trans (List.suffix_cons _ _)
  · exact entries.suffix.trans (List.suffix_cons _ _)
  · exact entry.suffix.trans (List.suffix_cons _ _)
  · exact given.suffix.trans (List.suffix_cons _ _)
  · exact ⟨t :: us, by simp⟩

/-- What is left of the items of a pass comes after its brace. -/
theorem ItemList.suffix {is : List PassItem} {stop : Nat} (h : ItemList R ts is stop rest) :
    rest <:+ ts := by
  induction h with
  | close => exact List.suffix_cons _ _
  | item item _ ih => exact ih.trans item.suffix

theorem PassBlock.suffix {p : Pass} (h : PassBlock R ts p rest) : rest <:+ ts := by
  obtain ⟨_, named, _, items⟩ := h
  exact ((items.suffix.trans (List.suffix_cons _ _)).trans named.suffix).trans (List.suffix_cons _ _)

/-- What is left of the items of a sub-shader comes after its brace. -/
theorem SubShaderItems.suffix {is : List SubShaderItem} {stop : Nat}
    (h : SubShaderItems R ts is stop rest) : rest <:+ ts := by
  induction h with
  | close => exact List.suffix_cons _ _
  | directive _ _ ih => exact ih.trans (List.suffix_cons _ _)
  | tags _ entries _ ih => exact (ih.trans entries.suffix).trans (List.suffix_cons _ _)
  | pass pass _ ih => exact ih.trans pass.suffix

theorem SubShaderBlock.suffix {s : SubShader} (h : SubShaderBlock R ts s rest) : rest <:+ ts := by
  obtain ⟨_, named, _, items, _, _⟩ := h
  exact ((items.suffix.trans (List.suffix_cons _ _)).trans named.suffix).trans (List.suffix_cons _ _)

/-! ## The two choices -/

/-- Whether a token is what a number in a color or with a sign comes after. -/
def precedesNumber (t : Token) : Bool := t.isPunct '-' || t.isPunct '(' || t.isPunct ','

theorem precedesNumber_minus {t : Token} (h : t.isPunct '-' = true) : precedesNumber t = true := by
  rw [precedesNumber, h]
  rfl

theorem precedesNumber_parenthesis {t : Token} (h : t.isPunct '(' = true) :
    precedesNumber t = true := by
  rw [precedesNumber, h, Bool.or_true]
  rfl

theorem precedesNumber_comma {t : Token} (h : t.isPunct ',' = true) : precedesNumber t = true := by
  rw [precedesNumber, h, Bool.or_true]

/-- Whether what counts for a number by some rules also does by others, wherever the rules are
asked: after a sign, an opening parenthesis or a comma. -/
def NumbersAgree (R R' : Rules) (ts : List Token) : Prop :=
  ts.IsChain fun p t => precedesNumber p = true → (Number.readLiteral t.text).isSome = true →
    R.IsNumber t → R'.IsNumber t

/-- Rules that agree on tokens do so on the last ones of them. -/
theorem NumbersAgree.of_suffix (h : NumbersAgree R R' ts) (hs : rest <:+ ts) :
    NumbersAgree R R' rest := List.IsChain.suffix h hs

/-- The number after a token that one can come after. -/
theorem NumbersAgree.head {p t : Token} {negative : Bool} {x : Number.Double}
    (h : NumbersAgree R R' (p :: t :: ts)) (hp : precedesNumber p = true)
    (value : signedNumber negative t = some x) (number : R.IsNumber t) : R'.IsNumber t := by
  refine (List.isChain_cons_cons.1 h).1 hp ?_ number
  obtain ⟨y, hy, -⟩ := Option.map_eq_some_iff.1 value
  exact Option.isSome_of_mem hy

/-- Rules agree on tokens if what reads as a number, and counts for one by the first, also does by
the second. -/
theorem numbersAgree_of_forall (h : ∀ t ∈ ts, (Number.readLiteral t.text).isSome = true →
    R.IsNumber t → R'.IsNumber t) : NumbersAgree R R' ts := by
  induction ts with
  | nil => exact .nil
  | cons p ts ih =>
    have ih := ih (List.forall_mem_cons.1 h).2
    obtain _ | ⟨t, ts⟩ := ts
    · exact .singleton p
    · exact List.isChain_cons_cons.2 ⟨fun _ => h t (by simp), ih⟩

/-- The separators of rules are separators by all rules that are less greedy. -/
theorem Separator.mono {cs : List Char} (hg : R'.greedy → R.greedy) (h : Separator R cs ts rest) :
    Separator R' cs ts rest := by
  obtain ahead | ⟨mem, punct⟩ := h
  · exact .absent fun hR => ahead (hg hR)
  · exact .present mem punct

/-- Tags ask for number tokens by all rules; the rules only choose between their separators. -/
theorem TagList.mono {es : List TagEntry} (hg : R'.greedy → R.greedy) (h : TagList R ts es rest) :
    TagList R' ts es rest := by
  induction h with
  | close closing => exact .close closing
  | entry name equals value separator _ ih => exact .entry name equals value (separator.mono hg) ih

theorem TagBlock.mono {es : List TagEntry} (hg : R'.greedy → R.greedy) (h : TagBlock R ts es rest) :
    TagBlock R' ts es rest := by
  obtain ⟨opening, entries⟩ := h
  exact .intro opening (entries.mono hg)

/-- The number of a component comes after the token before it, or after its own sign. -/
theorem Component.mono {p : Token} {x : Number.Single} (hn : NumbersAgree R R' (p :: ts))
    (hp : precedesNumber p = true) (h : Component R ts x rest) : Component R' ts x rest := by
  obtain ⟨noMinus, number, value⟩ | ⟨minus, number, value⟩ := h
  · exact .plain noMinus (hn.head hp value number) value
  · have hn := hn.of_suffix (List.suffix_cons _ _)
    exact .negative minus (hn.head (precedesNumber_minus minus) value number) value

/-- The first component comes after a parenthesis, and each other one after a comma. -/
theorem Components.mono {p : Token} {xs : List Number.Single} (hn : NumbersAgree R R' (p :: ts))
    (hp : precedesNumber p = true) (h : Components R ts xs rest) : Components R' ts xs rest := by
  induction h generalizing p with
  | last number closing => exact .last (number.mono hn hp) closing
  | more number comma _ ih =>
    refine .more (number.mono hn hp) comma (ih (hn.of_suffix ?_) (precedesNumber_comma comma))
    exact number.suffix.trans (List.suffix_cons _ _)

/-- **The value of a state is one by all rules that agree on its numbers.** -/
theorem StateText.mono {v : StateValue} (hg : R'.greedy → R.greedy) (hn : NumbersAgree R R' ts)
    (h : StateText R ts v rest) : StateText R' ts v rest := by
  cases h with
  | bool bool => exact .bool bool
  | number number value => exact .number number value
  | negative minus number value =>
    exact .negative minus (hn.head (precedesNumber_minus minus) value number) value
  | string string => exact .string string
  | solidColor name word opening components =>
    have hn := hn.of_suffix (List.suffix_cons _ _)
    exact .solidColor name word opening (components.mono hn (precedesNumber_parenthesis opening))
  | color name word opening components =>
    have hn := hn.of_suffix (List.suffix_cons _ _)
    exact .color name word opening (components.mono hn (precedesNumber_parenthesis opening))
  | member word noBool typed point name mem => exact .member word noBool typed point name mem
  | var name ahead => exact .var name fun hR => ahead (hg hR)

/-- A stage asks for no number. -/
theorem StageForm.mono {text : StageText} (hg : R'.greedy → R.greedy)
    (h : StageForm R ts text rest) : StageForm R' ts text rest := by
  obtain ⟨opening, inside, closing⟩ | ⟨equals, identifier, separator⟩ := h
  · exact .body opening inside closing
  · exact .entry equals identifier (separator.mono hg)

end Grammar

end ShaderPass.Shader
