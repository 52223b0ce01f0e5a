import Mathlib.Tactic.Choose
import ShaderPass.Proofs.Json.Spelling

/-!
# Proofs/Json/Reading — every text of JSON data is read as the data

    [  v  ,  w  ]
     ╰─┬─╯╰─┬─╯
     taken, then a comma and the other items, then what closes them

Whatever blanks stand between the parts of a text and however its strings are spelled, it is read as
a value that stands for its data (`read_of_isText`).  The induction is on how the data is written.
Items and members are separated in one way, so one induction over what comes between the commas
serves both (`Separated.reads`).
-/

namespace ShaderPass.Json

variable {text inner mid next rest blanks chars : List Char} {c : Char} {v : Value} {d : Data}

/-- A value **stands** for data if it is the data with the texts spelled in some way. -/
inductive Stands : Value → Data → Prop
  | null : Stands .null .null
  | text {s : Spelling} {t : String} (spelled : s.text? = some t) : Stands (.string s) (.text t)
  | array {items : List (Value × Data)} (each : ∀ i ∈ items, Stands i.1 i.2) :
      Stands (.array (items.map (·.1))) (.array (items.map (·.2)))
  | object {members : List ((Spelling × Value) × (String × Data))}
      (named : ∀ m ∈ members, Spelling.text? m.1.1 = some m.2.1)
      (each : ∀ m ∈ members, Stands m.1.2 m.2.2) :
      Stands (.object (members.map (·.1))) (.object (members.map (·.2)))

/-! ## Blanks -/

theorem skipBlanks_cons (h : isBlank c = false) (text : List Char) :
    skipBlanks (c :: text) = c :: text :=
  List.dropWhile_cons_of_neg (Bool.not_eq_true _ ▸ h)

theorem skipBlanks_append (h : AllBlank blanks) (text : List Char) :
    skipBlanks (blanks ++ text) = skipBlanks text :=
  List.dropWhile_append_of_pos h

/-- Blanks before something else are skipped up to it. -/
theorem skipBlanks_append_cons (h : AllBlank blanks) (hc : isBlank c = false) (text : List Char) :
    skipBlanks (blanks ++ c :: text) = c :: text :=
  (skipBlanks_append h _).trans (skipBlanks_cons hc text)

theorem Padded.allBlank_before (p : Padded) : AllBlank p.before :=
  fun c hc => p.blank c (List.mem_append_left _ hc)

theorem Padded.allBlank_after (p : Padded) : AllBlank p.after :=
  fun c hc => p.blank c (List.mem_append_right _ hc)

/-- A text **opens** with a character that is no blank and closes no array. -/
def Opens (text : List Char) : Prop :=
  ∃ c rest, text = c :: rest ∧ isBlank c = false ∧ c ≠ ']'

/-- What data is written as opens with one of `n`, `"`, `[` and `{`. -/
theorem Writes.opens (h : Writes d chars) : Opens chars := by
  cases h with
  | null => exact ⟨'n', _, rfl, by decide⟩
  | text _ => exact ⟨'"', _, rfl, by decide⟩
  | emptyArray _ | array _ _ => exact ⟨'[', _, rfl, by decide⟩
  | emptyObject _ | object _ _ => exact ⟨'{', _, rfl, by decide⟩

/-! ## Reading -/

/-- A text **reads** as a value and what follows it. -/
def Reads (text : List Char) (v : Value) (rest : List Char) : Prop :=
  ∃ h, readValue text = some (v, ⟨rest, h⟩)

/-- A text reads as items up to the bracket that closes them. -/
def ReadsItems (text : List Char) (items : List Value) (rest : List Char) : Prop :=
  ∃ h, readItems text = some (items, ⟨rest, h⟩)

/-- A text reads as a member: its name, a colon and its value. -/
def ReadsMember (text : List Char) (member : Spelling × Value) (rest : List Char) : Prop :=
  ∃ start h, shorten text (readName text) = some (member.1, ⟨start, h⟩) ∧
    Reads start member.2 rest

/-- A text reads as members up to the brace that closes them. -/
def ReadsMembers (text : List Char) (members : List (Spelling × Value)) (rest : List Char) : Prop :=
  ∃ h, readMembers text = some (members, ⟨rest, h⟩)

/-- Where neither a bracket nor a brace stands, a value without others in it is read. -/
theorem reads_atom (hs : skipBlanks text = c :: inner) (bracket : c ≠ '[') (brace : c ≠ '{')
    (atom : readAtom (c :: inner) = some (v, rest)) (shorter : rest.length ≤ inner.length) :
    Reads text v rest := by
  have h : rest.length < text.length := Nat.lt_of_le_of_lt shorter (length_of_skipBlanks hs)
  refine ⟨h, ?_⟩
  rw [readValue]
  split
  next h' => exact absurd (List.cons.inj (hs.symm.trans h')).1 bracket
  next h' => exact absurd (List.cons.inj (hs.symm.trans h')).1 brace
  next => rw [hs, atom, shorten, Option.bind_some]; exact dif_pos h

theorem reads_array_nil (hs : skipBlanks text = '[' :: inner)
    (hi : skipBlanks inner = ']' :: rest) : Reads text (.array []) rest := by
  refine ⟨Nat.lt_trans (length_of_skipBlanks hi) (length_of_skipBlanks hs), ?_⟩
  rw [readValue]
  split
  next _ h =>
    cases hs.symm.trans h
    split
    next h => cases hi.symm.trans h; rfl
    next h => exact absurd hi (h rest)
  next h => cases hs.symm.trans h
  next h _ => exact absurd hs (h inner)

theorem reads_array {items : List Value} (hs : skipBlanks text = '[' :: inner)
    (hi : ∀ rest, skipBlanks inner ≠ ']' :: rest) (h : ReadsItems inner items rest) :
    Reads text (.array items) rest := by
  obtain ⟨shorter, h⟩ := h
  refine ⟨Nat.lt_trans shorter (length_of_skipBlanks hs), ?_⟩
  rw [readValue]
  split
  next _ h' =>
    cases hs.symm.trans h'
    split
    next h' => exact absurd h' (hi _)
    next => rw [h]
  next h' => cases hs.symm.trans h'
  next h' _ => exact absurd hs (h' inner)

theorem reads_object_nil (hs : skipBlanks text = '{' :: inner)
    (hi : skipBlanks inner = '}' :: rest) : Reads text (.object []) rest := by
  refine ⟨Nat.lt_trans (length_of_skipBlanks hi) (length_of_skipBlanks hs), ?_⟩
  rw [readValue]
  split
  next h => cases hs.symm.trans h
  next _ h =>
    cases hs.symm.trans h
    split
    next h => cases hi.symm.trans h; rfl
    next h => exact absurd hi (h rest)
  next _ h => exact absurd hs (h inner)

theorem reads_object {members : List (Spelling × Value)} (hs : skipBlanks text = '{' :: inner)
    (hi : ∀ rest, skipBlanks inner ≠ '}' :: rest) (h : ReadsMembers inner members rest) :
    Reads text (.object members) rest := by
  obtain ⟨shorter, h⟩ := h
  refine ⟨Nat.lt_trans shorter (length_of_skipBlanks hs), ?_⟩
  rw [readValue]
  split
  next h' => cases hs.symm.trans h'
  next _ h' =>
    cases hs.symm.trans h'
    split
    next h' => exact absurd h' (hi _)
    next => rw [h]
  next _ h' => exact absurd hs (h' inner)

/-! ## Separating by commas -/

/-- How a reader takes **separated** parts: the last part up to what closes them all, and any other
up to a comma. -/
structure Separated {α : Type} (Part : List Char → α → List Char → Prop)
    (Parts : List Char → List α → List Char → Prop) (close : Char) : Prop where
  last : ∀ {text mid rest a}, Part text a mid → skipBlanks mid = close :: rest → Parts text [a] rest
  cons : ∀ {text mid next rest a as}, Part text a mid → skipBlanks mid = ',' :: next →
    Parts next as rest → Parts text (a :: as) rest

/-- Items are separated by commas and closed by a bracket. -/
theorem separated_items : Separated Reads ReadsItems ']' where
  last := by
    rintro text mid rest v ⟨shorter, h⟩ hs
    refine ⟨Nat.lt_trans (length_of_skipBlanks hs) shorter, ?_⟩
    rw [readItems, h]
    dsimp only
    split
    next h' => cases hs.symm.trans h'; rfl
    next h' => cases hs.symm.trans h'
    next h' _ => exact absurd hs (h' rest)
  cons := by
    rintro text mid next rest v vs ⟨shorter, h⟩ hs ⟨shorter', h'⟩
    refine ⟨Nat.lt_trans shorter' (Nat.lt_trans (length_of_skipBlanks hs) shorter), ?_⟩
    rw [readItems, h]
    dsimp only
    split
    next hs' => cases hs.symm.trans hs'
    next hs' => cases hs.symm.trans hs'; rw [h']
    next _ hs' => exact absurd hs (hs' next)

/-- Members are separated by commas and closed by a brace. -/
theorem separated_members : Separated ReadsMember ReadsMembers '}' where
  last := by
    rintro text mid rest m ⟨start, shorter, hname, shorter', h⟩ hs
    refine ⟨Nat.lt_trans (length_of_skipBlanks hs) (Nat.lt_trans shorter' shorter), ?_⟩
    rw [readMembers, hname]
    dsimp only
    rw [h]
    dsimp only
    split
    next h' => cases hs.symm.trans h'; rfl
    next h' => cases hs.symm.trans h'
    next h' _ => exact absurd hs (h' rest)
  cons := by
    rintro text mid next rest m ms ⟨start, shorter, hname, shorter', h⟩ hs ⟨shorter'', h'⟩
    refine ⟨Nat.lt_trans shorter'' (Nat.lt_trans (length_of_skipBlanks hs)
      (Nat.lt_trans shorter' shorter)), ?_⟩
    rw [readMembers, hname]
    dsimp only
    rw [h]
    dsimp only
    split
    next hs' => cases hs.symm.trans hs'
    next hs' => cases hs.symm.trans hs'; rw [h']
    next _ hs' => exact absurd hs (hs' next)

/-- Characters are **taken** as a part if they are read as it up to blanks at their end, whatever
follows them. -/
def TakenAs {α : Type} (Part : List Char → α → List Char → Prop) (chars : List Char) (a : α) :
    Prop :=
  ∃ blanks, AllBlank blanks ∧ ∀ rest, Part (chars ++ rest) a (blanks ++ rest)

/-- Parts that are each taken are read with commas between them. -/
theorem Separated.reads {ι α : Type} {Part : List Char → α → List Char → Prop}
    {Parts : List Char → List α → List Char → Prop} {close : Char} (h : Separated Part Parts close)
    (hclose : isBlank close = false) (chars : ι → List Char) (value : ι → α) {i : ι} {is : List ι}
    (each : ∀ j ∈ i :: is, TakenAs Part (chars j) (value j)) (blank : AllBlank blanks) :
    Parts (chars i ++ (afterCommas (is.map chars) ++ (blanks ++ close :: rest)))
      ((i :: is).map value) rest := by
  -- on the parts after the first: each comma hands on to a text that starts with the next part
  induction is generalizing i with
  | nil =>
    obtain ⟨after, allBlank, read⟩ := each i List.mem_cons_self
    refine h.last (read _) ?_
    rw [skipBlanks_append allBlank, List.map_nil, afterCommas, List.flatMap_nil, List.nil_append]
    exact skipBlanks_append_cons blank hclose rest
  | cons j js ih =>
    obtain ⟨⟨after, allBlank, read⟩, others⟩ := List.forall_mem_cons.1 each
    refine h.cons (read _) ?_ (ih others)
    rw [skipBlanks_append allBlank, List.map_cons, afterCommas, List.flatMap_cons, List.cons_append,
      List.cons_append, List.append_assoc]
    exact skipBlanks_cons rfl _

/-! ## What is written -/

/-- What stands between an opening and a closing character, with what follows the latter. -/
theorem between_append (first others blanks rest : List Char) (opening close : Char) :
    opening :: (first ++ (others ++ (blanks ++ [close]))) ++ rest =
      opening :: (first ++ (others ++ (blanks ++ close :: rest))) := by
  simp

/-- Characters **read as** a value whatever blanks stand before them and whatever follows them. -/
def ReadAs (chars : List Char) (v : Value) : Prop :=
  ∀ blanks rest, AllBlank blanks → Reads (blanks ++ (chars ++ rest)) v rest

/-- The first item of an array does not close it. -/
theorem Padded.not_closed (p : Padded) (h : Opens p.chars) (after rest : List Char) :
    skipBlanks (p.text ++ after) ≠ ']' :: rest := by
  obtain ⟨c, cs, opens, notBlank, ne⟩ := h
  rw [Padded.text, opens, List.append_assoc, List.append_assoc, List.cons_append,
    skipBlanks_append_cons p.allBlank_before notBlank]
  exact fun h => ne (List.cons.inj h).1

/-- What is read as a value is taken as it with its blanks around it. -/
theorem Padded.takenAs (p : Padded) (h : ReadAs p.chars v) : TakenAs Reads p.text v := by
  refine ⟨p.after, p.allBlank_after, fun rest => ?_⟩
  rw [Padded.text, List.append_assoc, List.append_assoc]
  exact h _ _ p.allBlank_before

/-- A member starts with the quote of its name. -/
theorem Member.skipBlanks_text (m : Member) (rest : List Char) :
    skipBlanks (m.text ++ rest) =
      '"' :: (m.spelling ++ '"' :: (m.gap ++ ':' :: (m.value.text ++ rest))) := by
  have before : AllBlank m.before := fun c hc => m.blank c (List.mem_append_left _ hc)
  simp only [Member.text, Spelling.quoted, List.append_assoc, List.cons_append]
  exact skipBlanks_append_cons before rfl _

/-- A member is taken where its value is. -/
theorem Member.takenAs (m : Member) (h : ReadAs m.value.chars v) :
    TakenAs ReadsMember m.text (m.spelling, v) := by
  obtain ⟨blanks, allBlank, read⟩ := m.value.takenAs h
  refine ⟨blanks, allBlank, fun rest => ?_⟩
  have gap : AllBlank m.gap := fun c hc => m.blank c (List.mem_append_right _ hc)
  have hname : readName (m.text ++ rest) = some (m.spelling, m.value.text ++ rest) := by
    rw [readName, m.skipBlanks_text]
    show (readSpelling _).bind _ = _
    rw [Spelling.readSpelling_of_spells m.spells, Option.bind_some]
    dsimp only
    rw [skipBlanks_append_cons gap rfl]
    rfl
  have shorter : (m.value.text ++ rest).length < (m.text ++ rest).length := by
    have := length_of_skipBlanks (m.skipBlanks_text rest)
    simp only [List.length_append, List.length_cons] at this ⊢
    omega
  refine ⟨_, shorter, ?_, read rest⟩
  rw [hname, shorten, Option.bind_some]
  exact dif_pos shorter

/-- **What data is written as is read as a value that stands for it.** -/
theorem Writes.readAs (h : Writes d chars) : ∃ v, Stands v d ∧ ReadAs chars v := by
  induction h with
  | null =>
    refine ⟨.null, .null, fun blanks rest blank => ?_⟩
    exact reads_atom (skipBlanks_append_cons blank rfl _) (by decide) (by decide) rfl
      (by simp; omega)
  | @text t s spells =>
    refine ⟨.string s, .text (Spelling.text?_of_spells spells), fun blanks rest blank => ?_⟩
    rw [Spelling.quoted, List.cons_append, List.append_assoc, List.singleton_append]
    refine reads_atom (skipBlanks_append_cons blank rfl _) (by decide) (by decide) ?_
      (by simp; omega)
    rw [readAtom, Spelling.readSpelling_of_spells spells]
    rfl
  | emptyArray inside =>
    refine ⟨.array [], .array (List.forall_mem_nil _), fun blanks rest blank => ?_⟩
    rw [List.cons_append, List.append_assoc, List.singleton_append]
    exact reads_array_nil (skipBlanks_append_cons blank rfl _)
      (skipBlanks_append_cons inside rfl _)
  | @array first others inner each inside ih =>
    -- one value for each item, whatever the text around it
    choose! value stands reads using ih
    refine ⟨.array ((first :: others).map value), ?_, fun blanks rest blank => ?_⟩
    · have := @Stands.array ((first :: others).map fun i => (value i, i.data))
        (List.forall_mem_map.2 stands)
      rwa [List.map_map, List.map_map] at this
    · rw [between_append]
      exact reads_array (skipBlanks_append_cons blank rfl _)
        (first.not_closed (each first List.mem_cons_self).opens _)
        (separated_items.reads rfl (fun i : Item => i.text) value
          (fun i hi => i.takenAs (reads i hi)) inside)
  | emptyObject inside =>
    refine ⟨.object [], .object (List.forall_mem_nil _) (List.forall_mem_nil _),
      fun blanks rest blank => ?_⟩
    rw [List.cons_append, List.append_assoc, List.singleton_append]
    exact reads_object_nil (skipBlanks_append_cons blank rfl _)
      (skipBlanks_append_cons inside rfl _)
  | @object first others inner each inside ih =>
    choose! value stands reads using ih
    refine ⟨.object ((first :: others).map fun m => (m.spelling, value m)), ?_,
      fun blanks rest blank => ?_⟩
    · have := @Stands.object
        ((first :: others).map fun m => ((m.spelling, value m), (m.name, m.data)))
        (List.forall_mem_map.2 fun m _ => Spelling.text?_of_spells m.spells)
        (List.forall_mem_map.2 stands)
      rwa [List.map_map, List.map_map] at this
    · rw [between_append]
      refine reads_object (skipBlanks_append_cons blank rfl _) (fun rest h => ?_)
        (separated_members.reads rfl Member.text (fun m => (m.spelling, value m))
          (fun m hm => m.takenAs (reads m hm)) inside)
      cases (first.skipBlanks_text _).symm.trans h

/-- **Every text of JSON data is read as a value that stands for the data.** -/
theorem read_of_isText {text : String} (h : IsText d text) :
    ∃ v, read text = some v ∧ Stands v d := by
  obtain ⟨p, writes, text_eq⟩ := h
  obtain ⟨v, stands, reads⟩ := writes.readAs
  obtain ⟨shorter, hread⟩ : Reads text.toList v p.after :=
    text_eq ▸ reads p.before p.after p.allBlank_before
  refine ⟨v, ?_, stands⟩
  have closed : skipBlanks p.after = [] := by
    simpa [skipBlanks] using skipBlanks_append p.allBlank_after []
  rw [read, hread]
  exact if_pos closed

end ShaderPass.Json
