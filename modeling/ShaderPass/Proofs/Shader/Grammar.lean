import ShaderPass.Shader.Parse

/-!
# Proofs/Shader/Grammar — what a shader file is made of

    file      ::= directive* 'Shader' STRING '{' subShaders '}' directive* | subShaders
    subShader ::= 'SubShader' STRING? '{' (directive | tags | pass)* '}'
    pass      ::= 'Pass' STRING? '{' (tags | states | queue | stage | shared)* '}'

Each production is a relation between the tokens that are there, what the production denotes, and the
tokens that are left.  Two things are left to choose (`Rules`).  In a **greedy** reading, what can
belong to an item is taken by it: a semicolon that may follow, and a dot or a parenthesis that makes
more of a name than a variable.  Otherwise it can also begin the shared text after the item.  And
after a sign, and in a color, either number tokens count or all tokens that read as a number.
-/

namespace ShaderPass.Shader

namespace Token

theorem isPunct_iff {t : Token} {c : Char} : t.isPunct c = true ↔ t.kind = .punct c := beq_iff_eq

theorem isPunct_eq_false_iff {t : Token} {c : Char} : t.isPunct c = false ↔ t.kind ≠ .punct c :=
  beq_eq_false_iff_ne

/-- A token is one mark at most. -/
theorem isPunct_eq_false_of_ne {t : Token} {c d : Char} (h : t.isPunct c = true) (hne : c ≠ d) :
    t.isPunct d = false := by
  rw [isPunct_iff] at h
  rw [isPunct_eq_false_iff, h]
  exact fun he => hne (TokenKind.punct.inj he)

/-- A word is a name, or one that means something by itself. -/
theorem isWord_iff {t : Token} :
    t.isWord = true ↔ t.kind = .identifier ∨ ∃ w, t.kind = .word w := by
  unfold isWord
  split
  next hk => simp [hk]
  next w hk => simp [hk]
  next hi hw => simpa using ⟨hi, hw⟩

/-- A word is no mark. -/
theorem isPunct_eq_false_of_isWord {t : Token} (h : t.isWord = true) (c : Char) :
    t.isPunct c = false := by
  obtain hk | ⟨w, hk⟩ := isWord_iff.1 h <;> simp [isPunct, hk]

theorem keyword?_eq_some_iff {t : Token} {k : Keyword} :
    t.keyword? = some k ↔ t.kind = .word (.structural k) := by
  unfold keyword?
  split
  next h => simp [h]
  next h => simpa using fun he => h k he

/-- A keyword is no mark. -/
theorem isPunct_eq_false_of_keyword? {t : Token} {k : Keyword} (h : t.keyword? = some k) (c : Char) :
    t.isPunct c = false := by
  rw [isPunct, keyword?_eq_some_iff.1 h]
  rfl

/-- Whether a token is a brace. -/
def isBrace (t : Token) : Bool := t.isPunct '{' || t.isPunct '}'

end Token

namespace Grammar

open Number (Double Single)

/-- What the grammar leaves to choose. -/
structure Rules where
  /-- Whether what can belong to an item is taken by it. -/
  greedy : Prop
  /-- The tokens that count for a number after a sign and in a color. -/
  IsNumber : Token → Prop

namespace Rules

/-- An item can end wherever its production lets it; numbers are number tokens. -/
def free : Rules := ⟨False, fun t => t.kind = .number⟩

/-- An item takes all that can belong to it; numbers are number tokens. -/
def strict : Rules := ⟨True, fun t => t.kind = .number⟩

/-- An item takes all that can belong to it; whatever reads as a number is one. -/
def lenient : Rules := ⟨True, fun _ => True⟩

end Rules

variable (R : Rules)

/-- A separator, which may be missing. -/
inductive Separator (cs : List Char) : List Token → List Token → Prop
  | absent {ts : List Token} (ahead : R.greedy → ∀ c ∈ cs, startsWith c ts = false) :
      Separator cs ts ts
  | present {t : Token} {rest : List Token} {c : Char} (mem : c ∈ cs) (punct : t.isPunct c = true) :
      Separator cs (t :: rest) rest

/-- The name of a block, which may be missing. -/
inductive Name : List Token → Option String → List Token → Prop
  | absent {ts : List Token} : Name ts none ts
  | present {t : Token} {rest : List Token} (string : t.kind = .string) :
      Name (t :: rest) (some t.unquoted) rest

/-! ## Tags -/

/-- The value of a tag. -/
inductive TagText : List Token → TagValue → List Token → Prop
  | string {t : Token} {rest : List Token} (string : t.kind = .string) :
      TagText (t :: rest) (.string t.unquoted) rest
  | bool {t : Token} {rest : List Token} {b : Bool} (bool : t.kind = .word (.boolean b)) :
      TagText (t :: rest) (.bool b) rest
  | number {t : Token} {rest : List Token} {x : Double} (number : t.kind = .number)
      (value : signedNumber false t = some x) : TagText (t :: rest) (.number x) rest
  | negative {m t : Token} {rest : List Token} {x : Double} (minus : m.isPunct '-' = true)
      (number : t.kind = .number) (value : signedNumber true t = some x) :
      TagText (m :: t :: rest) (.number x) rest

/-- Tags up to their closing brace. -/
inductive TagList : List Token → List TagEntry → List Token → Prop
  | close {c : Token} {rest : List Token} (closing : c.isPunct '}' = true) :
      TagList (c :: rest) [] rest
  | entry {t eq : Token} {ts ts' ts'' rest : List Token} {v : TagValue} {es : List TagEntry}
      (name : t.isWord = true) (equals : eq.isPunct '=' = true) (value : TagText ts v ts')
      (separator : Separator R [',', ';'] ts' ts'') (more : TagList ts'' es rest) :
      TagList (t :: eq :: ts) ((t.text, v) :: es) rest

/-- Tags between braces. -/
inductive TagBlock : List Token → List TagEntry → List Token → Prop
  | intro {o : Token} {ts rest : List Token} {es : List TagEntry}
      (opening : o.isPunct '{' = true) (entries : TagList R ts es rest) :
      TagBlock (o :: ts) es rest

/-! ## States -/

/-- A component of a color. -/
inductive Component : List Token → Single → List Token → Prop
  | plain {t : Token} {rest : List Token} {x : Double} (noMinus : t.isPunct '-' = false)
      (number : R.IsNumber t) (value : signedNumber false t = some x) :
      Component (t :: rest) x.toSingle rest
  | negative {m t : Token} {rest : List Token} {x : Double} (minus : m.isPunct '-' = true)
      (number : R.IsNumber t) (value : signedNumber true t = some x) :
      Component (m :: t :: rest) x.toSingle rest

/-- The components of a color up to the closing parenthesis. -/
inductive Components : List Token → List Single → List Token → Prop
  | last {ts rest : List Token} {x : Single} {c : Token} (number : Component R ts x (c :: rest))
      (closing : c.isPunct ')' = true) : Components ts [x] rest
  | more {ts ts' rest : List Token} {x : Single} {xs : List Single} {c : Token}
      (number : Component R ts x (c :: ts')) (comma : c.isPunct ',' = true)
      (more : Components ts' xs rest) : Components ts (x :: xs) rest

/-- The value of a state. -/
inductive StateText : List Token → StateValue → List Token → Prop
  | bool {t : Token} {rest : List Token} {b : Bool} (bool : t.kind = .word (.boolean b)) :
      StateText (t :: rest) (.constant (.bool b)) rest
  | number {t : Token} {rest : List Token} {x : Double} (number : t.kind = .number)
      (value : signedNumber false t = some x) : StateText (t :: rest) (.constant (.number x)) rest
  | negative {m t : Token} {rest : List Token} {x : Double} (minus : m.isPunct '-' = true)
      (number : R.IsNumber t) (value : signedNumber true t = some x) :
      StateText (m :: t :: rest) (.constant (.number x)) rest
  | string {t : Token} {rest : List Token} (string : t.kind = .string) :
      StateText (t :: rest) (.constant (.string t.unquoted)) rest
  | solidColor {t o : Token} {ts rest : List Token} {r g b : Single} (name : t.kind = .identifier)
      (word : t.text = "Color") (opening : o.isPunct '(' = true)
      (components : Components R ts [r, g, b] rest) :
      StateText (t :: o :: ts) (.constant (.color ⟨r, g, b, .one⟩)) rest
  | color {t o : Token} {ts rest : List Token} {r g b a : Single} (name : t.kind = .identifier)
      (word : t.text = "Color") (opening : o.isPunct '(' = true)
      (components : Components R ts [r, g, b, a] rest) :
      StateText (t :: o :: ts) (.constant (.color ⟨r, g, b, a⟩)) rest
  | member {t dot m : Token} {rest : List Token} {type : StateEnum} (word : t.isWord = true)
      (noBool : ∀ b, t.kind ≠ .word (.boolean b)) (typed : StateEnum.ofName? t.text = some type)
      (point : dot.isPunct '.' = true) (name : m.kind = .identifier)
      (mem : type.hasMember m.text = true) :
      StateText (t :: dot :: m :: rest) (.constant (.enum type m.text)) rest
  | var {t : Token} {rest : List Token} (name : t.kind = .identifier)
      (ahead : R.greedy → startsWith '.' rest = false ∧
        (t.text = "Color" → startsWith '(' rest = false)) :
      StateText (t :: rest) (.variable t.text) rest

/-- The index of a render target, which is zero where none is given. -/
inductive Target (element : StateElement) : List Token → Nat → List Token → Prop
  | absent {ts : List Token} : Target element ts 0 ts
  | index {o i c : Token} {rest : List Token} {n : Nat} (opening : o.isPunct '[' = true)
      (number : targetIndex? i = some n) (perTarget : element.isPerTarget = true)
      (closing : c.isPunct ']' = true) : Target element (o :: i :: c :: rest) n rest

/-- States up to their closing brace. -/
inductive StateList (block : StateBlock) : List Token → List StateEntry → List Token → Prop
  | close {c : Token} {rest : List Token} (closing : c.isPunct '}' = true) :
      StateList block (c :: rest) [] rest
  | entry {t eq : Token} {ts ts' ts'' ts''' rest : List Token} {element : StateElement} {n : Nat}
      {v : StateValue} {es : List StateEntry} (name : t.isWord = true)
      (key : StateElement.lookup? block t.text = some element)
      (target : Target element ts n (eq :: ts')) (equals : eq.isPunct '=' = true)
      (value : StateText R ts' v ts'') (separator : Separator R [';', ','] ts'' ts''')
      (more : StateList block ts''' es rest) :
      StateList block (t :: ts) ((⟨element, n⟩, v) :: es) rest

/-- States between braces. -/
inductive StateBlockText (block : StateBlock) :
    List Token → List StateEntry → List Token → Prop
  | intro {o : Token} {ts rest : List Token} {es : List StateEntry}
      (opening : o.isPunct '{' = true) (entries : StateList R block ts es rest) :
      StateBlockText block (o :: ts) es rest

/-- A type of render queue after its keyword. -/
inductive Queue : List Token → StateEntry → List Token → Prop
  | intro {eq : Token} {ts ts' rest : List Token} {v : StateValue} (equals : eq.isPunct '=' = true)
      (value : StateText R ts v ts') (separator : Separator R [';'] ts' rest) :
      Queue (eq :: ts) (⟨.renderQueueType, 0⟩, v) rest

/-! ## Passes -/

/-- Tokens with balanced braces; those outside of braces are of some sort. -/
inductive Balanced : (Token → Prop) → List Token → Prop
  | nil {Outside : Token → Prop} : Balanced Outside []
  | token {Outside : Token → Prop} {t : Token} {ts : List Token} (noBrace : t.isBrace = false)
      (outside : Outside t) (more : Balanced Outside ts) : Balanced Outside (t :: ts)
  | block {Outside : Token → Prop} {o c : Token} {us ts : List Token}
      (opening : o.isPunct '{' = true) (inside : Balanced (fun _ => True) us)
      (closing : c.isPunct '}' = true) (more : Balanced Outside ts) :
      Balanced Outside (o :: (us ++ c :: ts))

/-- What gives the text of a stage. -/
inductive StageForm : List Token → StageText → List Token → Prop
  | body {o c : Token} {us rest : List Token} (opening : o.isPunct '{' = true)
      (inside : Balanced (fun _ => True) us) (closing : c.isPunct '}' = true) :
      StageForm (o :: (us ++ c :: rest)) (.inline ⟨o.span.stop, c.span.start⟩) rest
  | entry {eq name : Token} {ts rest : List Token} (equals : eq.isPunct '=' = true)
      (identifier : name.kind = .identifier) (separator : Separator R [';'] ts rest) :
      StageForm (eq :: name :: ts) (.entry name.text name.span) rest

/-- An item of a pass.  Shared text begins with no keyword, and reaches to the first brace that
closes more than it opens or to the first keyword outside of its braces that begins an item. -/
inductive Item : List Token → PassItem → List Token → Prop
  | tags {k : Token} {ts rest : List Token} {es : List TagEntry} (key : k.keyword? = some .tags)
      (entries : TagBlock R ts es rest) : Item (k :: ts) (.tags es) rest
  | states {k : Token} {ts rest : List Token} {block : StateBlock} {es : List StateEntry}
      (key : k.keyword? = some block.keyword) (entries : StateBlockText R block ts es rest) :
      Item (k :: ts) (.states es) rest
  | queue {k : Token} {ts rest : List Token} {e : StateEntry}
      (key : k.keyword? = some .renderQueueType) (entry : Queue R ts e rest) :
      Item (k :: ts) (.states [e]) rest
  | stage {k : Token} {ts rest : List Token} {kind : StageKind} {text : StageText}
      (key : k.keyword? = some kind.keyword) (given : StageForm R ts text rest) :
      Item (k :: ts) (.stage kind text) rest
  | shared {t u : Token} {us rest : List Token} (noKeyword : t.keyword? = none)
      (run : Balanced (fun t => endsShared t = false) (t :: us)) (ends : endsShared u = true) :
      Item (t :: (us ++ u :: rest)) (.shared (spanOf t us) (declaredFunctions 0 (t :: us)))
        (u :: rest)

/-- Items up to the closing brace of their pass, and the end of that brace. -/
inductive ItemList : List Token → List PassItem → Nat → List Token → Prop
  | close {c : Token} {rest : List Token} (closing : c.isPunct '}' = true) :
      ItemList (c :: rest) [] c.span.stop rest
  | item {ts ts' rest : List Token} {i : PassItem} {is : List PassItem} {stop : Nat}
      (item : Item R ts i ts') (more : ItemList ts' is stop rest) : ItemList ts (i :: is) stop rest

/-- A pass. -/
inductive PassBlock : List Token → Pass → List Token → Prop
  | intro {k o : Token} {ts ts' rest : List Token} {name : Option String} {is : List PassItem}
      {stop : Nat} (key : k.keyword? = some .pass) (named : Name ts name (o :: ts'))
      (opening : o.isPunct '{' = true) (items : ItemList R ts' is stop rest) :
      PassBlock (k :: ts) ⟨name, is, ⟨k.span.start, stop⟩⟩ rest

/-! ## Sub-shaders and files -/

/-- The items of a sub-shader up to its closing brace, and the end of that brace. -/
inductive SubShaderItems : List Token → List SubShaderItem → Nat → List Token → Prop
  | close {c : Token} {rest : List Token} (closing : c.isPunct '}' = true) :
      SubShaderItems (c :: rest) [] c.span.stop rest
  | directive {d : Token} {ts rest : List Token} {is : List SubShaderItem} {stop : Nat}
      (directive : d.kind = .directive) (more : SubShaderItems ts is stop rest) :
      SubShaderItems (d :: ts) is stop rest
  | tags {k : Token} {ts ts' rest : List Token} {es : List TagEntry} {is : List SubShaderItem}
      {stop : Nat} (key : k.keyword? = some .tags) (entries : TagBlock R ts es ts')
      (more : SubShaderItems ts' is stop rest) : SubShaderItems (k :: ts) (.tags es :: is) stop rest
  | pass {ts ts' rest : List Token} {p : Pass} {is : List SubShaderItem} {stop : Nat}
      (pass : PassBlock R ts p ts') (more : SubShaderItems ts' is stop rest) :
      SubShaderItems ts (.pass p :: is) stop rest

/-- A sub-shader, which holds a pass. -/
inductive SubShaderBlock : List Token → SubShader → List Token → Prop
  | intro {k o : Token} {ts ts' rest : List Token} {s : SubShader} {stop : Nat}
      (key : k.keyword? = some .subShader) (named : Name ts s.name (o :: ts'))
      (opening : o.isPunct '{' = true) (items : SubShaderItems R ts' s.items stop rest)
      (span : s.span = ⟨k.span.start, stop⟩) (passes : s.passes ≠ []) :
      SubShaderBlock (k :: ts) s rest

/-- Sub-shaders, with directives before and after them. -/
inductive SubShaders : List Token → List SubShader → List Token → Prop
  | nil {ts : List Token} : SubShaders ts [] ts
  | directive {d : Token} {ts rest : List Token} {ss : List SubShader}
      (directive : d.kind = .directive) (more : SubShaders ts ss rest) :
      SubShaders (d :: ts) ss rest
  | subShader {ts ts' rest : List Token} {s : SubShader} {ss : List SubShader}
      (subShader : SubShaderBlock R ts s ts') (more : SubShaders ts' ss rest) :
      SubShaders ts (s :: ss) rest

/-- **A file**: sub-shaders on their own or in a shader block, and at least one. -/
inductive File : List Token → Tree → Prop
  | plain {ts : List Token} {ss : List SubShader} (subShaders : SubShaders R ts ss [])
      (nonempty : ss ≠ []) : File ts ⟨none, ss⟩
  | block {ds ds' ts : List Token} {k name o c : Token} {ss : List SubShader}
      (before : ∀ d ∈ ds, d.kind = .directive) (key : k.keyword? = some .shader)
      (string : name.kind = .string) (opening : o.isPunct '{' = true)
      (subShaders : SubShaders R ts ss (c :: ds')) (nonempty : ss ≠ [])
      (closing : c.isPunct '}' = true) (after : ∀ d ∈ ds', d.kind = .directive) :
      File (ds ++ k :: name :: o :: ts) ⟨some name.unquoted, ss⟩

end Grammar

end ShaderPass.Shader
