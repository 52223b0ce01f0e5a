import Mathlib
import ShaderPass.Proofs.Macro.Equations
import ShaderPass.Proofs.Macro.Lexemes
import ShaderPass.Proofs.Macro.Termination

/-!
# Proofs/Macro/Complete — nothing is left that could have been expanded, and nothing hidden that could not

    queue ──▸ … ──▸ t :: ts ──▸ ts ──▸ …        t is put out here, with ts behind it
    out   =    before ++ t   ::  after          and ts becomes what comes after it

Every token that comes out was **examined**: it stood in front of the queue, and no macro replaced it
there (`exists_examined`).  So a name that has a macro comes out only if the token hides it, or if the
macro takes an argument list and none followed.  And a token hides a name only if it **arose inside**
an expansion of that macro: it descends from a token of a replacement of that name
(`arises_of_expands`).  Tokens that come out as they stand in the source are of the queue, in order
(`sublist_verbatim`).
-/

namespace ShaderPass.Macro

open Relation (ReflTransGen)

variable {table : Table} {t u v : Token} {ts queue queue' out before after : List Token}
  {d : Definition} {name : String}

/-! ## What is put out was examined -/

/-- Expansion **scans** on from one queue to another: the token in front has been put out, or has been
replaced. -/
inductive Scans (table : Table) : List Token → List Token → Prop
  | keep {t : Token} {ts : List Token} (keeps : table.Keeps t ts) : Scans table (t :: ts) ts
  | replace {t : Token} {ts new rest : List Token} {d : Definition}
      (replaces : Replaces table t ts d new rest) : Scans table (t :: ts) (new ++ rest)

/-- A token was **examined** with `ts` behind it: the queue has been scanned on to where the token
stands in front and stays, and what is behind it becomes what comes out after it. -/
structure Examined (table : Table) (queue : List Token) (t : Token) (ts after : List Token) : Prop where
  reached : ReflTransGen (Scans table) queue (t :: ts)
  keeps : table.Keeps t ts
  rest : expand table ts = .ok after

theorem Examined.of_scans (h : Scans table queue queue') (hx : Examined table queue' t ts after) :
    Examined table queue t ts after := ⟨.head h hx.reached, hx.keeps, hx.rest⟩

/-- **Every token that comes out was examined.** -/
theorem exists_examined (h : Expands table queue out) (hout : out = before ++ t :: after) :
    ∃ ts, Examined table queue t ts after := by
  induction h generalizing before with
  | nil => cases before <;> cases hout
  | @keep u us out keeps rest ih =>
    cases before with
    | nil =>
      obtain ⟨rfl, rfl⟩ := List.cons.inj hout
      exact ⟨us, .refl, keeps, expand_of_expands rest⟩
    | cons b before =>
      obtain ⟨ts, hx⟩ := ih (List.cons.inj hout).2
      exact ⟨ts, hx.of_scans (.keep keeps)⟩
  | object names params _ ih =>
    obtain ⟨ts, hx⟩ := ih hout
    exact ⟨ts, hx.of_scans (.replace (.object names params))⟩
  | call names opening closing arity length each _ _ ih =>
    obtain ⟨ts, hx⟩ := ih hout
    exact ⟨ts, hx.of_scans (.replace (.call names opening closing arity length each))⟩

/-- A name of a macro that takes no arguments stays only where it is hidden. -/
theorem Table.Keeps.mem_hide (h : table.Keeps t ts) (kind : t.kind = .identifier)
    (names : table.get? t.text = some d) (params : d.params = none) : t.text ∈ t.hide := by
  by_contra shown
  exact (h d (applicable_eq_some_iff.2 ⟨kind, shown, names⟩)).1 params

/-- Where no argument list opens, what follows the trivia is no opening parenthesis. -/
theorem not_opens_of_afterOpening (h : afterOpening ts = none) {rest : List Token}
    (ht : ts.dropWhile (·.isTrivia) = t :: rest) : t.isPunct '(' = false := by
  induction ts with
  | nil => cases ht
  | cons u us ih =>
    rw [afterOpening] at h
    rw [List.dropWhile_cons] at ht
    split at h
    next trivia =>
      rw [if_pos trivia] at ht
      exact ih h ht
    next trivia =>
      rw [if_neg trivia] at ht
      obtain ⟨rfl, rfl⟩ := List.cons.inj ht
      split at h
      next => cases h
      next noPunct => exact eq_false_of_ne_true noPunct

/-! ## Descent -/

/-- A token **begets** another in the course of an expansion: it is replaced, and the other is of the
replacement; or it is of an argument, and the other is what it becomes there or in the replacement. -/
inductive Begets (table : Table) : Token → Token → Prop
  | replacement {t u : Token} {d : Definition} {args : List (List Token)}
      (names : table.applicable t = some d) (mem : u ∈ d.substitute t args) : Begets table t u
  | inLine (t : Token) : Begets table t t.inLine
  | argument {t : Token} {d : Definition} (names : table.applicable t = some d) (v : Token) :
      Begets table v (d.argumentToken t v)

/-- A token **arises inside** an expansion of a macro: the expansion of the queue leads to a queue
whose first token the macro replaces, and the token descends from one of the replacement. -/
structure ArisesInside (table : Table) (queue : List Token) (d : Definition) (t : Token) : Prop where
  exists_replaces : ∃ u ts new rest, ReflTransGen (Leads table) queue (u :: ts) ∧
    Replaces table u ts d new rest ∧ ∃ v ∈ new, ReflTransGen (Begets table) v t

namespace ArisesInside

theorem of_leads (h : Leads table queue queue') (ht : ArisesInside table queue' d t) :
    ArisesInside table queue d t := by
  obtain ⟨u, ts, new, rest, leads, replaces, v, hv, begets⟩ := ht.exists_replaces
  exact ⟨u, ts, new, rest, .head h leads, replaces, v, hv, begets⟩

theorem begets (h : Begets table t u) (ht : ArisesInside table queue d t) :
    ArisesInside table queue d u := by
  obtain ⟨w, ts, new, rest, leads, replaces, v, hv, begets⟩ := ht.exists_replaces
  exact ⟨w, ts, new, rest, leads, replaces, v, hv, begets.tail h⟩

/-- A token arises inside an expansion of a macro of the table. -/
theorem get?_name (ht : ArisesInside table queue d t) : table.get? d.name = some d := by
  obtain ⟨u, ts, new, rest, -, replaces, -⟩ := ht.exists_replaces
  exact Table.get?_of_mem (name_notMem_hide (hides_of_replaces replaces).1).1

end ArisesInside

/-- Where a name that a token hides comes from: from a token of the queue that hid it before, or from
an expansion of the macro of that name. -/
def Accounted (table : Table) (queue : List Token) (name : String) (t : Token) : Prop :=
  (∃ v ∈ queue, name ∈ v.hide ∧ ReflTransGen (Begets table) v t) ∨
    ∃ d, d.name = name ∧ ArisesInside table queue d t

namespace Accounted

theorem of_mem (ht : t ∈ queue) (hname : name ∈ t.hide) : Accounted table queue name t :=
  .inl ⟨t, ht, hname, .refl⟩

theorem begets (h : Begets table t u) (ht : Accounted table queue name t) :
    Accounted table queue name u := by
  rcases ht with ⟨v, hv, hname, begets⟩ | ⟨d, hd, arises⟩
  · exact .inl ⟨v, hv, hname, begets.tail h⟩
  · exact .inr ⟨d, hd, arises.begets h⟩

/-- What is accounted for by a queue is accounted for by one that leads to it and accounts for its
tokens. -/
theorem of_leads (h : Leads table queue queue')
    (hqueue : ∀ v ∈ queue', name ∈ v.hide → Accounted table queue name v)
    (ht : Accounted table queue' name t) : Accounted table queue name t := by
  rcases ht with ⟨v, hv, hname, begets⟩ | ⟨d, hd, arises⟩
  · induction begets with
    | refl => exact hqueue v hv hname
    | tail _ begets ih => exact ih.begets begets
  · exact .inr ⟨d, hd, arises.of_leads h⟩

/-- A replacement hides what the invocation does, and the name of the macro that makes it. -/
theorem of_replaces {new rest : List Token} (h : Replaces table t ts d new rest) (hu : u ∈ new)
    (hname : name ∈ t.hide ++ [d.name]) : Accounted table (t :: ts) name u := by
  have descends : Begets table t u := by
    cases h with
    | object names _ => exact .replacement names hu
    | call names _ _ _ _ _ => exact .replacement names hu
  rcases List.mem_append.1 hname with hname | hname
  · exact (of_mem List.mem_cons_self hname).begets descends
  · exact .inr ⟨d, (List.mem_singleton.1 hname).symm, t, ts, new, rest, .refl, h, u, hu, .refl⟩

end Accounted

/-- **Every name that a token of an expansion hides is accounted for.** -/
theorem accounted_of_expands (h : Expands table queue out) :
    ∀ t ∈ out, name ∈ t.hide → Accounted table queue name t := by
  induction h with
  | nil => exact fun _ ht => absurd ht List.not_mem_nil
  | keep keeps _ ih =>
    refine List.forall_mem_cons.2 ⟨.of_mem List.mem_cons_self, fun u hu hname => ?_⟩
    exact (ih u hu hname).of_leads (.keep keeps) fun v hv => .of_mem (List.mem_cons_of_mem _ hv)
  | @object t ts out d names params _ ih =>
    intro u hu hname
    have replaces : Replaces table t ts d (d.substitute t []) ts := .object names params
    refine (ih u hu hname).of_leads (.replace replaces) (List.forall_mem_append.2 ⟨?_, ?_⟩)
    · intro v hv hname
      rcases mem_substitute hv with ⟨_, hnil, _⟩ | ⟨l, -, -, rfl⟩
      · exact absurd hnil List.not_mem_nil
      · exact .of_replaces replaces hv hname
    · exact fun v hv => .of_mem (List.mem_cons_of_mem _ hv)
  | @call t ts inside tail out d args expanded names opening closing arity length each _ ihArgs ih =>
    intro u hu hname
    have replaces := Replaces.call names opening closing arity length each
    refine (ih u hu hname).of_leads (.replace replaces) (List.forall_mem_append.2 ⟨?_, ?_⟩)
    · intro v hv hname
      rcases mem_substitute hv with ⟨e, he, w, hw, rfl⟩ | ⟨l, -, -, rfl⟩
      · rcases mem_unite.1 hname with hname | hname
        · -- a name that the expanded argument hid on its own: its expansion accounts for it
          obtain ⟨a, ha, expands⟩ := exists_argument length ihArgs e he
          refine Accounted.begets (.argument names w) ?_
          refine (expands w hw hname).of_leads (.argument names opening closing ha) ?_
          intro x hx hname
          obtain ⟨taken, rfl, hargs⟩ := exists_taken opening closing
          obtain ⟨y, hy, rfl⟩ := hargs a (mem_given ha) x hx
          refine Accounted.begets (.inLine y) (.of_mem ?_ (y.hide_inLine ▸ hname))
          exact List.mem_cons_of_mem t (List.mem_append_left tail hy)
        · exact .of_replaces replaces hv hname
      · exact .of_replaces replaces hv hname
    · exact fun v hv => .of_mem (List.mem_cons_of_mem _ ((sublist_call opening closing).subset hv))

/-- From tokens that hide nothing on, a token hides a name only if it arose inside an expansion of
the macro of that name. -/
theorem arises_of_expands (h : Expands table queue out) (start : ∀ t ∈ queue, t.hide = [])
    (ht : t ∈ out) (hname : name ∈ t.hide) : ∃ d, d.name = name ∧ ArisesInside table queue d t := by
  rcases accounted_of_expands h t ht hname with ⟨v, hv, hname, -⟩ | arises
  · rw [start v hv] at hname
    cases hname
  · exact arises

/-! ## Tokens of the source -/

/-- A replacement has no tokens that stand in the source. -/
theorem filter_verbatim_substitute (d : Definition) (t : Token) (args : List (List Token))
    (rest : List Token) :
    (d.substitute t args ++ rest).filter (·.verbatim) = rest.filter (·.verbatim) := by
  have none : (d.substitute t args).filter (·.verbatim) = [] := by
    refine List.filter_eq_nil_iff.2 fun u hu => ?_
    rw [(place_substitute hu).2]
    exact Bool.false_ne_true
  rw [List.filter_append, none, List.nil_append]

/-- **What comes out as it stands in the source is of the queue, in order.** -/
theorem sublist_verbatim (h : Expands table queue out) :
    (out.filter (·.verbatim)).Sublist (queue.filter (·.verbatim)) := by
  induction h with
  | nil => exact .refl _
  | @keep t ts out _ _ ih =>
    rw [List.filter_cons, List.filter_cons]
    split
    next => exact ih.cons_cons t
    next => exact ih
  | @object t ts out d _ _ _ ih =>
    rw [filter_verbatim_substitute] at ih
    exact ih.trans ((List.sublist_cons_self t ts).filter _)
  | @call t ts inside tail out d args expanded _ opening closing _ _ _ _ _ ih =>
    rw [filter_verbatim_substitute] at ih
    exact ih.trans (((sublist_call opening closing).cons t).filter _)

/-- **Expansion is complete.**  From tokens that hide nothing, an identifier that names a macro
without parameters comes out only if it hides that name; then it arose inside an expansion of that
macro, and is not what stands in the source.  One that names a macro with parameters and does not
hide it was examined where no opening parenthesis followed, blanks and comments aside.  And the
tokens that come out as they stand in the source are tokens of the queue, in their order. -/
theorem expand_complete (start : ∀ t ∈ queue, t.hide = []) (h : expand table queue = .ok out) :
    (∀ t ∈ out, t.kind = .identifier → ∀ d, table.get? t.text = some d → d.params = none →
      t.text ∈ t.hide ∧ ArisesInside table queue d t ∧ t.verbatim = false) ∧
    (∀ before t after, out = before ++ t :: after → t.kind = .identifier →
      ∀ d, table.get? t.text = some d → d.params ≠ none → t.text ∉ t.hide →
        ∃ ts, Examined table queue t ts after ∧
          ∀ u rest, ts.dropWhile (·.isTrivia) = u :: rest → u.isPunct '(' = false) ∧
    (out.filter (·.verbatim)).Sublist queue := by
  have expands := expands_of_expand h
  have source : (out.filter (·.verbatim)).Sublist queue :=
    (sublist_verbatim expands).trans List.filter_sublist
  refine ⟨fun t ht kind d names params => ?_, fun before t after hout kind d names params shown => ?_,
    source⟩
  · obtain ⟨before, after, hout⟩ := List.append_of_mem ht
    obtain ⟨ts, examined⟩ := exists_examined expands hout
    have hidden := examined.keeps.mem_hide kind names params
    obtain ⟨d', hname, arises⟩ := arises_of_expands expands start ht hidden
    refine ⟨hidden, ?_, Bool.eq_false_iff.2 fun verbatim => ?_⟩
    · rw [← hname, arises.get?_name] at names
      exact Option.some.inj names ▸ arises
    · have hqueue := source.subset (List.mem_filter.2 ⟨ht, verbatim⟩)
      rw [start t hqueue] at hidden
      cases hidden
  · obtain ⟨ts, examined⟩ := exists_examined expands hout
    have opening := (examined.keeps d (applicable_eq_some_iff.2 ⟨kind, shown, names⟩)).2
    exact ⟨ts, examined, fun u rest => not_opens_of_afterOpening opening⟩

/-- A macro that mentions itself, and one with parameters whose name no argument list follows. -/
theorem expand_complete_apply :
    let self : Definition := ⟨"A", none, [⟨.identifier, "A"⟩]⟩
    let table := (Table.empty.define self).define ⟨"F", some ["x"], [⟨.identifier, "x"⟩]⟩
    let a : Token := ⟨⟨.identifier, "A"⟩, ⟨0, 0⟩, true, []⟩
    let f : Token := ⟨⟨.identifier, "F"⟩, ⟨0, 1⟩, true, []⟩
    let stop : Token := ⟨⟨.punct, ";"⟩, ⟨0, 2⟩, true, []⟩
    let a' : Token := ⟨⟨.identifier, "A"⟩, ⟨0, 0⟩, false, ["A"]⟩
    (∀ t ∈ [a, f, stop], t.hide = []) ∧ expand table [a, f, stop] = .ok [a', f, stop] ∧
      ArisesInside table [a, f, stop] self a' ∧ (∃ ts, Examined table [a, f, stop] f ts [stop]) ∧
      [f, stop].Sublist [a, f, stop] := by
  intro self table a f stop a'
  have start : ∀ t ∈ [a, f, stop], t.hide = [] := by decide
  have expands : expand table [a, f, stop] = .ok [a', f, stop] := by cbv
  obtain ⟨objects, functions, source⟩ := expand_complete start expands
  obtain ⟨-, arises, -⟩ := objects a' List.mem_cons_self rfl self rfl rfl
  obtain ⟨ts, examined, -⟩ := functions [a'] f [stop] rfl rfl _ rfl (by decide) (by decide)
  exact ⟨start, expands, arises, ⟨ts, examined⟩, source⟩

end ShaderPass.Macro
