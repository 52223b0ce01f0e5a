import ShaderPass.Text.Blank
import ShaderPass.Lexeme.Cursor

/-!
# Macro/Definition — macros and the table of those defined

A macro stands for its **body**, a list of lexemes.  One without a parameter list is replaced
wherever its name stands; one with a parameter list, even an empty one, only where an argument list
follows the name.  A **table** holds at most one macro of each name; defining a name again replaces
the macro it had (`get?_define`).
-/

namespace ShaderPass.Macro

/-- A macro: its name, its parameters if it takes an argument list, and its replacement. -/
structure Definition where
  name : String
  params : Option (List String)
  body : List Lexeme
  deriving DecidableEq, Repr, Inhabited

namespace Definition

/-- The macro whose body is written as the given text; blanks at either end do not count.  A fault
comes with its location in the text without those blanks. -/
def read (name : String) (params : Option (List String)) (body : String) :
    Except (Lexeme.Fault × Location) Definition :=
  (Lexeme.ofText (Text.trim body)).map fun lexemes => ⟨name, params, lexemes⟩

/-- Whether the macro takes an argument list. -/
def takesArguments (d : Definition) : Bool := d.params.isSome

/-- The place of a name among the parameters. -/
def paramIndex (d : Definition) (name : String) : Option Nat := d.params.bind (·.idxOf? name)

/-- The body as a text, with one space for each piece of trivia. -/
def bodyText (d : Definition) : String :=
  String.join (d.body.map fun l => if l.isTrivia then " " else l.text)

end Definition

/-- The macros defined, at most one of a name. -/
structure Table where
  entries : List Definition
  nodup : (entries.map (·.name)).Nodup
  deriving DecidableEq, Repr

namespace Table

/-- The table without macros. -/
def empty : Table := ⟨[], List.nodup_nil⟩

instance : Inhabited Table := ⟨empty⟩

/-- The macro of a name. -/
def get? (t : Table) (name : String) : Option Definition := t.entries.find? (·.name = name)

/-- Whether a name has a macro. -/
def isDefined (t : Table) (name : String) : Bool := (t.get? name).isSome

/-- The number of macros. -/
def size (t : Table) : Nat := t.entries.length

/-- The entries of other names. -/
def others (t : Table) (name : String) : List Definition := t.entries.filter (·.name ≠ name)

theorem nodup_others (t : Table) (name : String) : ((t.others name).map (·.name)).Nodup :=
  (List.filter_sublist.map _).nodup t.nodup

theorem notMem_others (t : Table) (name : String) : name ∉ (t.others name).map (·.name) := by
  simp [others]

/-- Puts a macro into the table, in place of one of the same name. -/
def define (t : Table) (d : Definition) : Table :=
  ⟨d :: t.others d.name, List.nodup_cons.2 ⟨t.notMem_others d.name, t.nodup_others d.name⟩⟩

/-- Takes the macro of a name out of the table. -/
def undefine (t : Table) (name : String) : Table := ⟨t.others name, t.nodup_others name⟩

@[simp] theorem get?_empty (name : String) : empty.get? name = none := rfl

theorem find?_others (t : Table) (name other : String) :
    (t.others name).find? (·.name = other) = if other = name then none else t.get? other := by
  rw [others, get?]
  split
  next h =>
    subst h
    simp
  next h =>
    rw [List.find?_filter]
    refine congrArg (List.find? · t.entries) (funext fun d => ?_)
    by_cases hd : d.name = other
    · simp [hd, h]
    · simp [hd]

/-- After a definition its name means it, and every other name means what it did. -/
@[simp] theorem get?_define (t : Table) (d : Definition) (name : String) :
    (t.define d).get? name = if name = d.name then some d else t.get? name := by
  rw [get?, define]
  rw [List.find?_cons]
  by_cases h : d.name = name
  · simp [h]
  · have h' : ¬name = d.name := fun e => h e.symm
    simp only [h, decide_false, h', if_false]
    rw [find?_others, if_neg h', get?]

/-- After a name is taken out it means nothing, and every other name means what it did. -/
@[simp] theorem get?_undefine (t : Table) (name other : String) :
    (t.undefine name).get? other = if other = name then none else t.get? other :=
  find?_others t name other

/-- A macro is found under its own name. -/
theorem name_of_get? {t : Table} {name : String} {d : Definition} (h : t.get? name = some d) :
    d.name = name := by
  simpa using List.find?_some h

theorem mem_of_get? {t : Table} {name : String} {d : Definition} (h : t.get? name = some d) :
    d ∈ t.entries := List.mem_of_find?_eq_some h

/-- Each macro in the table is the one its name means. -/
theorem get?_of_mem {t : Table} {d : Definition} (h : d ∈ t.entries) : t.get? d.name = some d := by
  obtain ⟨entries, nodup⟩ := t
  simp only [get?] at *
  induction entries with
  | nil => simp at h
  | cons e es ih =>
    simp only [List.map_cons, List.nodup_cons] at nodup
    rw [List.find?_cons]
    rcases List.mem_cons.1 h with rfl | h
    · simp
    · have : ¬e.name = d.name := fun he => nodup.1 (he ▸ List.mem_map_of_mem h)
      simp only [this, decide_false]
      exact ih nodup.2 h

end Table

end ShaderPass.Macro
