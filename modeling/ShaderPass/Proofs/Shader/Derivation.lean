import ShaderPass.Proofs.Outcome
import ShaderPass.Proofs.Shader.Grammar

/-!
# Proofs/Shader/Derivation — tags and states are read as the grammar derives them

    readTags place ts  =  a value and what is left of ts        a reading
          ⇕ gives_readTags
    TagBlock .lenient ts value rest                             a derivation

A reading **gives** a value and leaves tokens (`Gives`), a derivation relates the same three, and
for each reader without notices of its own they are the same relation.  From reading to derivation a
proof follows the branches of the reader, and its recursion where it has one; the other way it
follows the derivation, rule by rule.  Readings in sequence give what the parts give in turn
(`gives_bind`), so what holds of a reader is put together from what holds of those it calls.
Numbers are taken as the readers take them, from every token that reads as one (`Rules.lenient`).
-/

namespace ShaderPass.Shader

open Grammar

variable {α β : Type} {place : Place} {ts us rest : List Token} {a : α} {b : β}

/-- Whether a reading succeeds with a value and leaves some tokens. -/
def Gives (r : Except Error (Parsed α ts)) (a : α) (rest : List Token) : Prop :=
  ∃ p, r = .ok p ∧ p.value = a ∧ p.rest = rest

/-! ## Readings one after the other -/

/-- A reading that is there gives what it holds. -/
theorem gives_ok {p : Parsed α ts} : Gives (.ok p) a rest ↔ p.value = a ∧ p.rest = rest :=
  ⟨fun ⟨_, h, hv, hr⟩ => Except.ok.inj h ▸ ⟨hv, hr⟩, fun h => ⟨p, rfl, h⟩⟩

theorem gives_pure {p : Parsed α ts} :
    Gives (pure p : Except Error (Parsed α ts)) a rest ↔ p.value = a ∧ p.rest = rest := gives_ok

theorem not_gives_fail {cause : Cause} :
    ¬Gives (fail place us cause : Except Error (Parsed α ts)) a rest :=
  fun ⟨_, h, _⟩ => by cases h

/-- A reading goes on where something else has succeeded. -/
theorem gives_bind_iff {γ : Type} {x : Except Error γ} {f : γ → Except Error (Parsed β ts)} :
    Gives (x >>= f) b rest ↔ ∃ p, x = .ok p ∧ Gives (f p) b rest := by
  obtain e | p := x
  · refine ⟨fun ⟨_, h, _⟩ => ?_, fun ⟨_, h, _⟩ => ?_⟩ <;> cases h
  · exact ⟨fun h => ⟨p, rfl, h⟩, fun ⟨_, h, hf⟩ => Except.ok.inj h ▸ hf⟩

/-- A reading goes on with what another one gives. -/
theorem gives_bind {x : Except Error (Parsed α us)} {f : Parsed α us → Except Error (Parsed β ts)} :
    Gives (x >>= f) b rest ↔ ∃ a mid h, Gives x a mid ∧ Gives (f ⟨a, mid, h⟩) b rest := by
  rw [gives_bind_iff]
  constructor
  · rintro ⟨p, hx, h⟩
    exact ⟨p.value, p.rest, p.shorter, ⟨p, hx, rfl, rfl⟩, h⟩
  · rintro ⟨_, _, _, ⟨p, hx, rfl, rfl⟩, h⟩
    exact ⟨p, hx, h⟩

theorem Gives.bind {x : Except Error (Parsed α us)} {f : Parsed α us → Except Error (Parsed β ts)}
    {mid : List Token} (hx : Gives x a mid) (hf : ∀ h, Gives (f ⟨a, mid, h⟩) b rest) :
    Gives (x >>= f) b rest :=
  gives_bind.2 ⟨a, mid, hx.elim fun p hp => hp.2.2 ▸ p.shorter, hx, hf _⟩

/-- A reading that is changed gives the changed value of what it read. -/
theorem gives_map {x : Except Error (Parsed α us)} {f : Parsed α us → Parsed β ts} :
    Gives (x.map f) b rest ↔
      ∃ a mid h, Gives x a mid ∧ (f ⟨a, mid, h⟩).value = b ∧ (f ⟨a, mid, h⟩).rest = rest := by
  have h : x.map f = x >>= fun p => pure (f p) := by cases x <;> rfl
  rw [h, gives_bind]
  simp only [gives_pure]

/-! ## Punctuation -/

theorem startsWith_cons (c : Char) (t : Token) (ts : List Token) :
    startsWith c (t :: ts) = t.isPunct c := by simp [startsWith]

/-- What starts with a mark has it as its first token. -/
theorem exists_of_startsWith {c : Char} (h : startsWith c ts = true) :
    ∃ t us, ts = t :: us ∧ t.isPunct c = true := by
  cases ts with
  | nil => cases h
  | cons t us => exact ⟨t, us, rfl, (startsWith_cons c t us).symm.trans h⟩

theorem eat_cons {c : Char} {t : Token} (h : t.isPunct c = true) : eat c (t :: ts) = ts :=
  if_pos h

/-- A mark is taken if it stands first. -/
theorem eat_eq (c : Char) (ts : List Token) :
    eat c ts = if startsWith c ts = true then ts.tail else ts := by
  cases ts with
  | nil => rfl
  | cons t ts =>
    rw [startsWith_cons]
    rfl

theorem eatEither_eq (c d : Char) (ts : List Token) : eatEither c d ts =
    if startsWith c ts = true ∨ startsWith d ts = true then ts.tail else ts := by
  rw [eatEither, eat_eq, eat_eq]
  by_cases hc : startsWith c ts = true <;> simp [hc]

/-- **A mark that is expected is read just where it stands.** -/
theorem gives_expect {c : Char} {purpose : Purpose} {u : Unit} :
    Gives (expect place c purpose ts) u rest ↔ ∃ t, ts = t :: rest ∧ t.isPunct c = true := by
  unfold expect
  split
  next t ts =>
    split
    next h =>
      rw [gives_ok]
      constructor
      · rintro ⟨-, rfl⟩
        exact ⟨t, rfl, h⟩
      · rintro ⟨u, heq, -⟩
        exact ⟨rfl, (List.cons.inj heq).2⟩
    next h =>
      refine ⟨fun hg => absurd hg not_gives_fail, ?_⟩
      rintro ⟨u, heq, hu⟩
      obtain ⟨rfl, -⟩ := List.cons.inj heq
      exact absurd hu h
  next =>
    refine ⟨fun hg => absurd hg not_gives_fail, ?_⟩
    rintro ⟨u, heq, -⟩
    cases heq

/-- What is expected is taken where it stands. -/
theorem gives_expect_cons {c : Char} {purpose : Purpose} {t : Token} (h : t.isPunct c = true) :
    Gives (expect place c purpose (t :: ts)) () ts := gives_expect.2 ⟨t, rfl, h⟩

/-- A separator is taken wherever it stands. -/
theorem separator_lenient_iff {cs : List Char} : Separator .lenient cs ts rest ↔
    (if cs.any (startsWith · ts) then ts.tail else ts) = rest := by
  constructor
  · rintro (ahead | ⟨mem, punct⟩)
    · refine if_neg fun h => ?_
      obtain ⟨c, hc, hs⟩ := List.any_eq_true.1 h
      exact Bool.false_ne_true ((ahead trivial c hc).symm.trans hs)
    · exact if_pos (List.any_eq_true.2 ⟨_, mem, (startsWith_cons _ _ _).trans punct⟩)
  · rintro rfl
    split
    next h =>
      obtain ⟨c, hc, hs⟩ := List.any_eq_true.1 h
      obtain ⟨t, us, rfl, ht⟩ := exists_of_startsWith hs
      exact .present hc ht
    next h =>
      exact .absent fun _ c hc => eq_false_of_ne_true fun hs => h (List.any_eq_true.2 ⟨c, hc, hs⟩)

/-- One mark that may stand between items is taken wherever it stands. -/
theorem separator_iff {c : Char} : Separator .lenient [c] ts rest ↔ eat c ts = rest := by
  rw [separator_lenient_iff, eat_eq]
  simp only [List.any_cons, List.any_nil, Bool.or_false]

/-- Either of two marks is taken wherever it stands. -/
theorem separator_either_iff {c d : Char} :
    Separator .lenient [c, d] ts rest ↔ eatEither c d ts = rest := by
  rw [separator_lenient_iff, eatEither_eq]
  simp only [List.any_cons, List.any_nil, Bool.or_false, Bool.or_eq_true]

/-- What follows a sign that may stand first, with the sign. -/
theorem exists_eat_minus_iff {P : Bool → Token → Prop} :
    (∃ t, eat '-' ts = t :: rest ∧ P (startsWith '-' ts) t) ↔
      (∃ t, ts = t :: rest ∧ t.isPunct '-' = false ∧ P false t) ∨
      ∃ m t, ts = m :: t :: rest ∧ m.isPunct '-' = true ∧ P true t := by
  rw [eat_eq]
  constructor
  · rintro ⟨t, hts, ht⟩
    cases ts with
    | nil => cases hts
    | cons m us =>
      rw [startsWith_cons] at hts ht
      cases hm : m.isPunct '-' with
      | false =>
        rw [hm] at hts ht
        obtain ⟨rfl, rfl⟩ := List.cons.inj hts
        exact .inl ⟨m, rfl, hm, ht⟩
      | true =>
        rw [hm] at hts ht
        exact .inr ⟨m, t, congrArg _ hts, hm, ht⟩
  · rintro (⟨t, rfl, hm, ht⟩ | ⟨m, t, rfl, hm, ht⟩)
    · exact ⟨t, by simp [startsWith_cons, hm], by rw [startsWith_cons, hm]; exact ht⟩
    · exact ⟨t, by simp [startsWith_cons, hm], by rw [startsWith_cons, hm]; exact ht⟩

/-! ## Tags -/

/-- Without a sign a string, a number or a truth value is read, with one a number. -/
theorem tagValue?_eq_some_iff {negative : Bool} {t : Token} {v : TagValue} :
    tagValue? negative t = some v ↔
      (t.kind = .number ∧ ∃ x, signedNumber negative t = some x ∧ v = .number x) ∨
      negative = false ∧ (t.kind = .string ∧ v = .string t.unquoted ∨
        ∃ b, t.kind = .word (.boolean b) ∧ v = .bool b) := by
  unfold tagValue?
  split
  next hk => cases negative <;> simp [hk, eq_comm]
  next hk =>
    rw [Option.map_eq_some_iff]
    simp [hk, eq_comm]
  next b hk => cases negative <;> simp [hk, eq_comm]
  next hs hn hb =>
    refine iff_of_false (by simp) ?_
    rintro (⟨h, -⟩ | ⟨-, ⟨h, -⟩ | ⟨b, h, -⟩⟩)
    · exact hn h
    · exact hs h
    · exact hb b h

/-- The value of a tag is derived from the token after a sign that may stand first. -/
theorem tagText_iff {v : TagValue} : TagText ts v rest ↔
    ∃ t, eat '-' ts = t :: rest ∧ tagValue? (startsWith '-' ts) t = some v := by
  rw [exists_eat_minus_iff (P := fun negative t => tagValue? negative t = some v)]
  constructor
  · rintro (hk | hk | ⟨hk, hx⟩ | ⟨hm, hk, hx⟩)
    · exact .inl ⟨_, rfl, by simp [Token.isPunct, hk],
        tagValue?_eq_some_iff.2 (.inr ⟨rfl, .inl ⟨hk, rfl⟩⟩)⟩
    · exact .inl ⟨_, rfl, by simp [Token.isPunct, hk],
        tagValue?_eq_some_iff.2 (.inr ⟨rfl, .inr ⟨_, hk, rfl⟩⟩)⟩
    · exact .inl ⟨_, rfl, by simp [Token.isPunct, hk],
        tagValue?_eq_some_iff.2 (.inl ⟨hk, _, hx, rfl⟩)⟩
    · exact .inr ⟨_, _, rfl, hm, tagValue?_eq_some_iff.2 (.inl ⟨hk, _, hx, rfl⟩)⟩
  · rintro (⟨t, rfl, -, hv⟩ | ⟨m, t, rfl, hm, hv⟩)
    · obtain ⟨hk, x, hx, rfl⟩ | ⟨-, ⟨hk, rfl⟩ | ⟨b, hk, rfl⟩⟩ := tagValue?_eq_some_iff.1 hv
      · exact .number hk hx
      · exact .string hk
      · exact .bool hk
    · obtain ⟨hk, x, hx, rfl⟩ | ⟨h, -⟩ := tagValue?_eq_some_iff.1 hv
      · exact .negative hm hk hx
      · cases h

/-- **Reading the value of a tag is deriving it.** -/
theorem gives_readTagValue {name : String} {v : TagValue} :
    Gives (readTagValue place name ts) v rest ↔ TagText ts v rest := by
  rw [tagText_iff]
  unfold readTagValue
  split
  next he _ => simp [he, not_gives_fail]
  next t us h he _ =>
    split
    next w hw =>
      rw [gives_ok]
      constructor
      · rintro ⟨rfl, rfl⟩
        exact ⟨t, he, hw⟩
      · rintro ⟨u, heq, hv⟩
        obtain ⟨rfl, rfl⟩ := List.cons.inj (he.symm.trans heq)
        exact ⟨Option.some.inj (hw.symm.trans hv), rfl⟩
    next hw => simp [not_gives_fail, he, hw]

/-- Entries of tags that are read derive: by the recursion of the reader. -/
theorem tagList_of_gives {es : List TagEntry} (h : Gives (readTagEntries place ts) es rest) :
    TagList .lenient ts es rest := by
  fun_induction readTagEntries place ts generalizing es rest with
  | case1 => exact absurd h not_gives_fail
  | case2 t us hc =>
    obtain ⟨rfl, rfl⟩ := gives_ok.1 h
    exact .close hc
  | case3 t us _ hw ih =>
    obtain ⟨_, _, _, hequals, h⟩ := gives_bind.1 h
    obtain ⟨eq, rfl, heq⟩ := gives_expect.1 hequals
    obtain ⟨_, _, _, hvalue, h⟩ := gives_bind.1 h
    obtain ⟨_, _, _, hmore, h⟩ := gives_bind.1 h
    obtain ⟨rfl, rfl⟩ := gives_pure.1 h
    exact .entry hw heq (gives_readTagValue.1 hvalue) (separator_either_iff.2 rfl) (ih _ _ hmore)
  | case4 => exact absurd h not_gives_fail

/-- Entries of tags that derive are read: on the derivation, an entry at a time. -/
theorem gives_readTagEntries {es : List TagEntry} (h : TagList .lenient ts es rest) :
    Gives (readTagEntries place ts) es rest := by
  induction h with
  | close closing =>
    rw [readTagEntries, if_pos closing]
    exact gives_ok.2 ⟨rfl, rfl⟩
  | entry name equals value separator more ih =>
    obtain rfl := separator_either_iff.1 separator
    rw [readTagEntries, if_neg (by simp [Token.isPunct_eq_false_of_isWord name]), if_pos name]
    exact .bind (gives_expect_cons equals) fun _ => .bind (gives_readTagValue.2 value) fun _ =>
      .bind ih fun _ => gives_pure.2 ⟨rfl, rfl⟩

/-- **Reading a block of tags is deriving it.** -/
theorem gives_readTags {es : List TagEntry} :
    Gives (readTags place ts) es rest ↔ TagBlock .lenient ts es rest := by
  constructor
  · intro h
    obtain ⟨_, _, _, hbrace, h⟩ := gives_bind.1 h
    obtain ⟨o, rfl, ho⟩ := gives_expect.1 hbrace
    obtain ⟨_, _, _, hentries, h⟩ := gives_bind.1 h
    obtain ⟨rfl, rfl⟩ := gives_pure.1 h
    exact .intro ho (tagList_of_gives hentries)
  · rintro ⟨opening, entries⟩
    exact .bind (gives_expect_cons opening) fun _ => .bind (gives_readTagEntries entries) fun _ =>
      gives_pure.2 ⟨rfl, rfl⟩

/-! ## Values of states -/

/-- A component of a color is derived from the token after a sign that may stand first. -/
theorem component_iff {x : Number.Single} : Component .lenient ts x rest ↔
    ∃ t, eat '-' ts = t :: rest ∧ ∃ d, signedNumber (startsWith '-' ts) t = some d ∧
      d.toSingle = x := by
  rw [exists_eat_minus_iff (P := fun negative t => ∃ d, signedNumber negative t = some d ∧
    d.toSingle = x)]
  constructor
  · rintro (⟨hm, -, hd⟩ | ⟨hm, -, hd⟩)
    · exact .inl ⟨_, rfl, hm, _, hd, rfl⟩
    · exact .inr ⟨_, _, rfl, hm, _, hd, rfl⟩
  · rintro (⟨t, rfl, hm, d, hd, rfl⟩ | ⟨m, t, rfl, hm, d, hd, rfl⟩)
    · exact .plain hm trivial hd
    · exact .negative hm trivial hd

/-- Components that are read derive: the last one before a parenthesis, the others before a comma.
-/
theorem components_of_gives {xs : List Number.Single}
    (h : Gives (readComponents place ts) xs rest) : Components .lenient ts xs rest := by
  fun_induction readComponents place ts generalizing xs rest with
  | case1 => exact absurd h not_gives_fail
  | case2 => exact absurd h not_gives_fail
  | case3 ts t us heat d hd _ hc =>
    obtain ⟨rfl, rfl⟩ := gives_ok.1 h
    obtain ⟨c, us, rfl, hc⟩ := exists_of_startsWith hc
    refine .last (component_iff.2 ⟨t, heat.trans ?_, d, hd, rfl⟩) hc
    exact congrArg (fun us => t :: c :: us) (eat_cons hc).symm
  | case4 ts t us heat d hd _ _ ih =>
    obtain ⟨_, _, _, hcomma, h⟩ := gives_bind.1 h
    obtain ⟨c, rfl, hc⟩ := gives_expect.1 hcomma
    obtain ⟨_, _, _, hmore, h⟩ := gives_bind.1 h
    obtain ⟨rfl, rfl⟩ := gives_pure.1 h
    exact .more (component_iff.2 ⟨t, heat, d, hd, rfl⟩) hc (ih _ hmore)

/-- Components that derive are read. -/
theorem gives_readComponents {xs : List Number.Single} (h : Components .lenient ts xs rest) :
    Gives (readComponents place ts) xs rest := by
  induction h with
  | @last ts rest x c number closing =>
    obtain ⟨t, heat, d, hd, rfl⟩ := component_iff.1 number
    rw [readComponents.eq_def]
    split
    next he => cases heat.symm.trans he
    next u us he =>
      obtain ⟨rfl, rfl⟩ := List.cons.inj (heat.symm.trans he)
      simp [hd, startsWith_cons, closing, eat_cons, gives_ok]
  | @more ts ts' rest x xs c number comma more ih =>
    obtain ⟨t, heat, d, hd, rfl⟩ := component_iff.1 number
    rw [readComponents.eq_def]
    split
    next he => cases heat.symm.trans he
    next u us he =>
      obtain ⟨rfl, rfl⟩ := List.cons.inj (heat.symm.trans he)
      have hc : c.isPunct ')' = false := Token.isPunct_eq_false_of_ne comma (by decide)
      simp only [hd, startsWith_cons, hc]
      exact .bind (gives_expect_cons comma) fun _ => .bind ih fun _ => gives_pure.2 ⟨rfl, rfl⟩

/-- The value that the components of a color have, if there are three or four. -/
theorem gives_readColor {v : StateValue} : Gives (readColor place ts) v rest ↔
    ∃ r g b, (Components .lenient ts [r, g, b] rest ∧ v = .constant (.color ⟨r, g, b, .one⟩)) ∨
      ∃ a, Components .lenient ts [r, g, b, a] rest ∧ v = .constant (.color ⟨r, g, b, a⟩) := by
  constructor
  · intro h
    obtain ⟨xs, _, _, hxs, h⟩ := gives_bind.1 h
    have hxs := components_of_gives hxs
    split at h
    next r g b hrgb =>
      obtain ⟨rfl, rfl⟩ := gives_pure.1 h
      obtain rfl : xs = [r, g, b] := hrgb
      exact ⟨r, g, b, .inl ⟨hxs, rfl⟩⟩
    next r g b a hrgba =>
      obtain ⟨rfl, rfl⟩ := gives_pure.1 h
      obtain rfl : xs = [r, g, b, a] := hrgba
      exact ⟨r, g, b, .inr ⟨a, hxs, rfl⟩⟩
    next => exact absurd h not_gives_fail
  · rintro ⟨r, g, b, ⟨hxs, rfl⟩ | ⟨a, hxs, rfl⟩⟩ <;>
      exact .bind (gives_readComponents hxs) fun _ => gives_pure.2 ⟨rfl, rfl⟩

/-- A member of an enumeration is read from a name that the enumeration has. -/
theorem gives_readMember {type : StateEnum} {v : StateValue} :
    Gives (readMember place type ts) v rest ↔ ∃ m, ts = m :: rest ∧ m.kind = .identifier ∧
      type.hasMember m.text = true ∧ v = .constant (.enum type m.text) := by
  unfold readMember
  split
  next t us =>
    split
    next h =>
      rw [gives_ok]
      constructor
      · rintro ⟨rfl, rfl⟩
        exact ⟨t, rfl, h.1, h.2, rfl⟩
      · rintro ⟨m, heq, -, -, rfl⟩
        obtain ⟨rfl, rfl⟩ := List.cons.inj heq
        exact ⟨rfl, rfl⟩
    next h =>
      refine iff_of_false not_gives_fail ?_
      rintro ⟨m, heq, hk, hm, -⟩
      obtain ⟨rfl, -⟩ := List.cons.inj heq
      exact h ⟨hk, hm⟩
  next => simp [not_gives_fail]

/-- The type of a member is read from the word before the dot, the member from the token after it.
-/
theorem gives_readEnum {t : Token} {v : StateValue} : Gives (readEnum place t ts) v rest ↔
    ∃ type m, StateEnum.ofName? t.text = some type ∧ ts.tail = m :: rest ∧ m.kind = .identifier ∧
      type.hasMember m.text = true ∧ v = .constant (.enum type m.text) := by
  unfold readEnum
  split
  next hn => simp [not_gives_fail, hn]
  next type hn =>
    rw [gives_map]
    constructor
    · rintro ⟨_, _, _, h, rfl, rfl⟩
      obtain ⟨m, hm⟩ := gives_readMember.1 h
      exact ⟨type, m, hn, hm⟩
    · rintro ⟨type', m, hn', hm⟩
      obtain rfl := Option.some.inj (hn.symm.trans hn')
      exact ⟨v, rest, by rw [hm.1]; exact Nat.lt_succ_self _, gives_readMember.2 ⟨m, hm⟩, rfl, rfl⟩

/-- A word before a dot is the type of a member. -/
theorem member_of_gives {t : Token} {v : StateValue} (word : t.isWord = true)
    (noBool : ∀ b, t.kind ≠ .word (.boolean b)) (point : startsWith '.' ts = true)
    (h : Gives (readEnum place t ts) v rest) : StateText .lenient (t :: ts) v rest := by
  obtain ⟨dot, us, rfl, hdot⟩ := exists_of_startsWith point
  obtain ⟨type, m, hn, rfl, hk, hm, rfl⟩ := gives_readEnum.1 h
  exact .member word noBool hn hdot hk hm

/-- A name begins a color, the member of a type, or is that of a variable. -/
theorem stateText_of_gives_name {t : Token} {v : StateValue} (name : t.kind = .identifier)
    (h : Gives (readStateValue place (t :: ts)) v rest) : StateText .lenient (t :: ts) v rest := by
  simp only [readStateValue, name] at h
  split at h
  next hcolor =>
    obtain ⟨_, _, _, hread, rfl, rfl⟩ := gives_map.1 h
    obtain ⟨o, us, rfl, ho⟩ := exists_of_startsWith hcolor.2
    obtain ⟨r, g, b, ⟨hxs, rfl⟩ | ⟨a, hxs, rfl⟩⟩ := gives_readColor.1 hread
    · exact .solidColor name hcolor.1 ho hxs
    · exact .color name hcolor.1 ho hxs
  next hcolor =>
    split at h
    next hdot =>
      have noBool : ∀ b, t.kind ≠ .word (.boolean b) := fun b hb => by cases name.symm.trans hb
      exact member_of_gives (by rw [Token.isWord, name]) noBool hdot h
    next hdot =>
      obtain ⟨rfl, rfl⟩ := gives_ok.1 h
      refine .var name fun _ => ⟨eq_false_of_ne_true hdot, fun htext => ?_⟩
      exact eq_false_of_ne_true fun hopen => hcolor ⟨htext, hopen⟩

/-- The value of a state that is read derives, by what its first token is. -/
theorem stateText_of_gives {v : StateValue} (h : Gives (readStateValue place ts) v rest) :
    StateText .lenient ts v rest := by
  have gives := h
  unfold readStateValue at h
  split at h
  next => exact absurd h not_gives_fail
  next t us =>
    split at h
    next b hk =>
      obtain ⟨rfl, rfl⟩ := gives_ok.1 h
      exact .bool hk
    next hk =>
      split at h
      next => exact absurd h not_gives_fail
      next n us =>
        split at h
        next x hx =>
          obtain ⟨rfl, rfl⟩ := gives_ok.1 h
          exact .negative (Token.isPunct_iff.2 hk) trivial hx
        next => exact absurd h not_gives_fail
    next hk =>
      split at h
      next x hx =>
        obtain ⟨rfl, rfl⟩ := gives_ok.1 h
        exact .number hk hx
      next => exact absurd h not_gives_fail
    next hk =>
      obtain ⟨rfl, rfl⟩ := gives_ok.1 h
      exact .string hk
    next hk => exact stateText_of_gives_name hk gives
    next w hb hk =>
      split at h
      next hdot =>
        have noBool : ∀ b, t.kind ≠ .word (.boolean b) := fun b h =>
          hb b (TokenKind.word.inj (hk.symm.trans h))
        exact member_of_gives (by rw [Token.isWord, hk]) noBool hdot h
      next => exact absurd h not_gives_fail
    next => exact absurd h not_gives_fail

/-- The word `Color` before a parenthesis begins a color, not a variable. -/
theorem gives_readStateValue_color {t o : Token} {v : StateValue} (name : t.kind = .identifier)
    (word : t.text = "Color") (opening : o.isPunct '(' = true)
    (h : Gives (readColor place ts) v rest) :
    Gives (readStateValue place (t :: o :: ts)) v rest := by
  simp only [readStateValue, name, word, startsWith_cons, opening, and_self, if_true]
  exact gives_map.2 ⟨v, rest, h.elim fun p hp => hp.2.2 ▸ p.shorter, h, rfl, rfl⟩

/-- A word before a dot begins a member of its type, whether it is a name or a keyword. -/
theorem gives_readStateValue_member {t dot m : Token} {type : StateEnum} (word : t.isWord = true)
    (noBool : ∀ b, t.kind ≠ .word (.boolean b)) (typed : StateEnum.ofName? t.text = some type)
    (point : dot.isPunct '.' = true) (name : m.kind = .identifier)
    (mem : type.hasMember m.text = true) :
    Gives (readStateValue place (t :: dot :: m :: rest)) (.constant (.enum type m.text)) rest := by
  have h : Gives (readEnum place t (dot :: m :: rest)) (.constant (.enum type m.text)) rest :=
    gives_readEnum.2 ⟨type, m, typed, rfl, name, mem, rfl⟩
  have hopen : dot.isPunct '(' = false := Token.isPunct_eq_false_of_ne point (by decide)
  obtain hk | ⟨w, hk⟩ := Token.isWord_iff.1 word
  · simpa [readStateValue, hk, startsWith_cons, point, hopen] using h
  · rcases w with _ | b | _ | _ | _
    case boolean => exact absurd hk (noBool b)
    all_goals simpa [readStateValue, hk, startsWith_cons, point] using h

/-- **Reading the value of a state is deriving it**, if all that reads as a number counts for one.
-/
theorem gives_readStateValue {v : StateValue} : Gives (readStateValue place ts) v rest ↔
    StateText .lenient ts v rest := by
  refine ⟨stateText_of_gives, fun h => ?_⟩
  cases h with
  | bool hk => simp [readStateValue, hk, gives_ok, Parsed.ofHead]
  | number hk hx => simp [readStateValue, hk, hx, gives_ok, Parsed.ofHead]
  | negative hm hn hx => simp [readStateValue, Token.isPunct_iff.1 hm, hx, gives_ok]
  | string hk => simp [readStateValue, hk, gives_ok, Parsed.ofHead]
  | solidColor hk hw ho hxs =>
    exact gives_readStateValue_color hk hw ho (gives_readColor.2 ⟨_, _, _, .inl ⟨hxs, rfl⟩⟩)
  | color hk hw ho hxs =>
    exact gives_readStateValue_color hk hw ho (gives_readColor.2 ⟨_, _, _, .inr ⟨_, hxs, rfl⟩⟩)
  | member hword hb hn hdot hk hm => exact gives_readStateValue_member hword hb hn hdot hk hm
  | @var t _ hk ahead =>
    obtain ⟨hdot, hopen⟩ := ahead trivial
    have hcolor : ¬(t.text = "Color" ∧ startsWith '(' rest = true) := fun h => by
      simp [hopen h.1] at h
    simp [readStateValue, hk, hdot, hcolor, gives_ok, Parsed.ofHead]

/-! ## Blocks of states -/

/-- A target that is read derives: an index in brackets on a state that has one for each target, or
nothing. -/
theorem target_of_readTarget {element : StateElement} {name : String} {n : Nat}
    {r : Remainder ts} (h : readTarget place element name ts = .ok (n, r)) :
    Target element ts n r.rest := by
  revert h
  unfold readTarget
  split
  next t us =>
    split
    next ho =>
      split
      next =>
        intro h
        cases h
      next i us =>
        split
        next =>
          intro h
          cases h
        next n hn =>
          split
          next helement =>
            intro h
            rcases hclose : expect place ']' .afterTargetIndex us with e | ⟨_, after, _⟩
            · cases hclose ▸ h
            · obtain ⟨rfl, rfl⟩ := Prod.mk.inj (Except.ok.inj (hclose ▸ h))
              have gives : Gives (expect place ']' .afterTargetIndex us) () after :=
                ⟨_, hclose, rfl, rfl⟩
              obtain ⟨c, rfl, hc⟩ := gives_expect.1 gives
              exact .index ho hn helement hc
          next =>
            intro h
            cases h
    next =>
      intro h
      obtain ⟨rfl, rfl⟩ := Prod.mk.inj (Except.ok.inj h)
      exact .absent
  next =>
    intro h
    obtain ⟨rfl, rfl⟩ := Prod.mk.inj (Except.ok.inj h)
    exact .absent

/-- A target that derives is read, with what follows it. -/
theorem exists_readTarget (place : Place) {element : StateElement} (name : String) {n : Nat}
    {eq : Token} (h : Target element ts n (eq :: rest)) (equals : eq.isPunct '=' = true) :
    ∃ r, readTarget place element name ts = .ok (n, r) ∧ r.rest = eq :: rest := by
  rcases h with _ | ⟨opening, number, perTarget, closing⟩
  · have hopen : eq.isPunct '[' = false := Token.isPunct_eq_false_of_ne equals (by decide)
    exact ⟨.whole, by simp [readTarget, hopen], rfl⟩
  · obtain ⟨p, hp, -, hrest⟩ : Gives (expect place ']' .afterTargetIndex _) () (eq :: rest) :=
      gives_expect_cons closing
    simp only [readTarget, opening, number, perTarget, hp, if_true]
    exact ⟨_, rfl, hrest⟩

/-- Entries of states that are read derive: by the recursion of the reader. -/
theorem stateList_of_gives {block : StateBlock} {es : List StateEntry}
    (h : Gives (readStateEntries place block ts) es rest) :
    StateList .lenient block ts es rest := by
  fun_induction readStateEntries place block ts generalizing es rest with
  | case1 => exact absurd h not_gives_fail
  | case2 t us hc =>
    obtain ⟨rfl, rfl⟩ := gives_ok.1 h
    exact .close hc
  | case3 => exact absurd h not_gives_fail
  | case4 t us _ element helement ih =>
    obtain ⟨⟨n, after, hafter⟩, htarget, h⟩ := gives_bind_iff.1 h
    obtain ⟨_, _, _, hequals, h⟩ := gives_bind.1 h
    obtain ⟨eq, rfl, heq⟩ := gives_expect.1 hequals
    obtain ⟨_, _, _, hvalue, h⟩ := gives_bind.1 h
    obtain ⟨_, _, _, hmore, h⟩ := gives_bind.1 h
    obtain ⟨rfl, rfl⟩ := gives_pure.1 h
    obtain ⟨hw, hkey⟩ := (Option.ite_none_right_eq_some).1 helement
    exact .entry hw hkey (target_of_readTarget htarget) heq (gives_readStateValue.1 hvalue)
      (separator_either_iff.2 rfl) (ih _ hafter _ _ hmore)

/-- Entries of states that derive are read: on the derivation, an entry at a time. -/
theorem gives_readStateEntries {block : StateBlock} {es : List StateEntry}
    (h : StateList .lenient block ts es rest) :
    Gives (readStateEntries place block ts) es rest := by
  induction h with
  | close closing =>
    rw [readStateEntries, if_pos closing]
    exact gives_ok.2 ⟨rfl, rfl⟩
  | @entry t eq ts ts' ts'' ts''' rest element n v es name key target equals value separator more ih =>
    obtain rfl := separator_either_iff.1 separator
    obtain ⟨⟨after, hafter⟩, htarget, rfl⟩ := exists_readTarget place t.text target equals
    rw [readStateEntries, if_neg (by simp [Token.isPunct_eq_false_of_isWord name])]
    simp only [name, if_true, key]
    refine gives_bind_iff.2 ⟨_, htarget, ?_⟩
    exact .bind (gives_expect_cons equals) fun _ => .bind (gives_readStateValue.2 value) fun _ =>
      .bind ih fun _ => gives_pure.2 ⟨rfl, rfl⟩

/-- **Reading a block of states is deriving it.** -/
theorem gives_readStates {block : StateBlock} {es : List StateEntry} :
    Gives (readStates place block ts) es rest ↔ StateBlockText .lenient block ts es rest := by
  constructor
  · intro h
    obtain ⟨_, _, _, hbrace, h⟩ := gives_bind.1 h
    obtain ⟨o, rfl, ho⟩ := gives_expect.1 hbrace
    obtain ⟨_, _, _, hentries, h⟩ := gives_bind.1 h
    obtain ⟨rfl, rfl⟩ := gives_pure.1 h
    exact .intro ho (stateList_of_gives hentries)
  · rintro ⟨opening, entries⟩
    exact .bind (gives_expect_cons opening) fun _ => .bind (gives_readStateEntries entries) fun _ =>
      gives_pure.2 ⟨rfl, rfl⟩

/-- **Reading the type of a render queue is deriving it.** -/
theorem gives_readQueueType {e : StateEntry} :
    Gives (readQueueType place ts) e rest ↔ Queue .lenient ts e rest := by
  constructor
  · intro h
    obtain ⟨_, _, _, hequals, h⟩ := gives_bind.1 h
    obtain ⟨eq, rfl, heq⟩ := gives_expect.1 hequals
    obtain ⟨_, _, _, hvalue, h⟩ := gives_bind.1 h
    obtain ⟨rfl, rfl⟩ := gives_pure.1 h
    exact .intro heq (gives_readStateValue.1 hvalue) (separator_iff.2 rfl)
  · rintro ⟨equals, value, separator⟩
    obtain rfl := separator_iff.1 separator
    exact .bind (gives_expect_cons equals) fun _ => .bind (gives_readStateValue.2 value) fun _ =>
      gives_pure.2 ⟨rfl, rfl⟩

end ShaderPass.Shader
