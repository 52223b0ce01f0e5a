import ShaderPass.Proofs.Macro.Lexemes
import ShaderPass.Proofs.Macro.Termination
import ShaderPass.Proofs.Source.Lines

/-!
# Proofs/Macro/Lines — expansion stays on the lines of what it expands

    queue   F ( a , b ) ⏎ c        Takes: what stands between F and the end of its arguments
            └────┬────┘
    out      ⋯ x ⋯      ⏎ c        all of it on the line of F

A replacement has the place of the name that it replaces.  Where the bodies of the macros are on one
line, and all that an argument list takes from the queue is too, the replacement takes no line feed
out of the queue and puts none in, so the tokens that come out are in step with the unit that the
queue is in step with (`inStep_expands`).
-/

namespace ShaderPass.Macro

open Relation (ReflTransGen)
open Source (Piece)
open Source.Piece (InStep)
open Lexeme (OneLine)

variable {table : Table} {t : Token} {ts queue queue' out : List Token} {d : Definition}
  {unit line line' : Nat} {text : String}

/-! ## What argument lists take -/

/-- Whether a token stands in an argument list, from the name on to the closing parenthesis, that a
macro takes when a queue is expanded. -/
inductive Takes (table : Table) (queue : List Token) (u : Token) : Prop
  | intro {t : Token} {ts inside taken tail : List Token} {d : Definition}
      {args : List (List Token)} (leads : ReflTransGen (Leads table) queue (t :: ts))
      (names : table.applicable t = some d) (params : d.params ≠ none)
      (opening : afterOpening ts = some inside) (closing : arguments inside = some (args, tail))
      (split : ts = taken ++ tail) (mem : u ∈ taken)

theorem Takes.of_leads {u : Token} (h : Leads table queue queue') (hu : Takes table queue' u) :
    Takes table queue u := by
  obtain ⟨leads, names, params, opening, closing, split, mem⟩ := hu
  exact ⟨.head h leads, names, params, opening, closing, split, mem⟩

/-- Where no macro has a parameter list, nothing is taken. -/
theorem not_takes (h : ∀ d ∈ table.entries, d.params = none) {u : Token} : ¬Takes table queue u := by
  rintro ⟨-, names, params, -⟩
  exact params (h _ (Table.mem_of_get? (names_of_applicable names).2))

/-! ## Tokens in step with a unit -/

/-- The text of a token, with the place it comes from. -/
def Token.piece (t : Token) : Piece := ⟨t.text, t.origin.unit, t.origin.offset, t.verbatim⟩

/-- A replacement is in step where the name that it replaces is. -/
theorem inStep_replacement {new : List Token} (h : t.piece.Follows unit text line)
    (place : ∀ u ∈ new, u.origin = t.origin ∧ u.verbatim = false)
    (hnew : ∀ u ∈ new, u.toLexeme.OneLine) : InStep unit text line (new.map Token.piece) line := by
  induction new with
  | nil => rfl
  | cons u new ih =>
    obtain ⟨⟨origin, verbatim⟩, place⟩ := List.forall_mem_cons.1 place
    obtain ⟨hu, hnew⟩ := List.forall_mem_cons.1 hnew
    have follows : u.piece.Follows unit text line := by
      refine Piece.follows_of_oneLine ?_ ?_ verbatim hu
      · exact (congrArg Origin.unit origin).trans h.unit
      · exact (congrArg (fun o : Origin => Text.lineAt text o.offset) origin).trans h.start
    have feeds : Text.lineFeeds u.piece.text = 0 := Text.lineFeeds_eq_zero.2 hu
    refine ⟨follows, ?_⟩
    rw [feeds]
    exact ih place hnew

/-- A replacement is in step with what stays of the queue, where the name that it replaces and what
it takes of the queue are on one line. -/
theorem inStep_replaced {new taken tail : List Token} (names : table.applicable t = some d)
    (hq : InStep unit text line ((t :: (taken ++ tail)).map Token.piece) line')
    (hnames : t.kind = .identifier → t.toLexeme.OneLine) (htaken : ∀ u ∈ taken, u.toLexeme.OneLine)
    (place : ∀ u ∈ new, u.origin = t.origin ∧ u.verbatim = false)
    (hnew : ∀ u ∈ new, u.toLexeme.OneLine) :
    InStep unit text line ((new ++ tail).map Token.piece) line' := by
  have feeds : Text.lineFeeds t.piece.text = 0 :=
    Text.lineFeeds_eq_zero.2 (hnames (names_of_applicable names).1)
  obtain ⟨follows, rest⟩ := hq
  rw [feeds, Nat.add_zero, List.map_append] at rest
  obtain ⟨mid, before, after⟩ := Piece.inStep_append.1 rest
  obtain rfl : mid = line := before.eq_of_oneLine (List.forall_mem_map.2 htaken)
  rw [List.map_append]
  exact (inStep_replacement follows place hnew).append after

/-! ## Expansion -/

/-- What holds of the identifiers of the queue and of all lexemes of a replacement holds of the
identifiers after it. -/
theorem forall_names {new tail : List Token} (hnew : ∀ u ∈ new, u.toLexeme.OneLine)
    (htail : ∀ u ∈ tail, u.kind = .identifier → u.toLexeme.OneLine) :
    ∀ u ∈ new ++ tail, u.kind = .identifier → u.toLexeme.OneLine :=
  List.forall_mem_append.2 ⟨fun u hu _ => hnew u hu, htail⟩

/-- **Expansion keeps in step with the unit**, where the macros and the argument lists that they take
are on one line. -/
theorem inStep_expands (htable : table.Forall OneLine) (h : Expands table queue out)
    (htakes : ∀ u, Takes table queue u → u.toLexeme.OneLine)
    (hnames : ∀ t ∈ queue, t.kind = .identifier → t.toLexeme.OneLine)
    (hq : InStep unit text line (queue.map Token.piece) line') :
    InStep unit text line (out.map Token.piece) line' := by
  have body : ∀ {t : Token} {d : Definition}, table.applicable t = some d →
      ∀ l ∈ d.body, l.OneLine :=
    fun h => htable _ (Table.mem_of_get? (names_of_applicable h).2)
  have blank : OneLine ⟨.whitespace, " "⟩ := by decide
  induction h generalizing line with
  | nil => exact hq
  | keep keeps _ ih =>
    obtain ⟨-, hts⟩ := List.forall_mem_cons.1 hnames
    exact ⟨hq.1, ih (fun u hu => htakes u (hu.of_leads (.keep keeps))) hts hq.2⟩
  | @object t ts out d names params _ ih =>
    obtain ⟨ht, hts⟩ := List.forall_mem_cons.1 hnames
    have hnew : ∀ u ∈ d.substitute t [], u.toLexeme.OneLine :=
      forall_substitute (body names) (by simp)
    refine ih (fun u hu => htakes u (hu.of_leads (.replace (.object names params))))
      (forall_names hnew hts) ?_
    have hq : InStep unit text line ((t :: ([] ++ ts)).map Token.piece) line' := hq
    exact inStep_replaced names hq ht (by simp) (fun u => place_substitute) hnew
  | @call t ts inside tail out d args expanded names opening closing arity length each _ _ ih =>
    obtain ⟨ht, hts⟩ := List.forall_mem_cons.1 hnames
    obtain ⟨taken, rfl, hargs⟩ := exists_taken opening closing
    have htaken : ∀ u ∈ taken, u.toLexeme.OneLine := fun u hu =>
      htakes u ⟨.refl, names, params_of_arity closing arity, opening, closing, rfl, hu⟩
    have hexpanded : ∀ e ∈ expanded, ∀ u ∈ e, u.toLexeme.OneLine := by
      intro e he
      obtain ⟨a, ha, expands⟩ := exists_argument length each e he
      refine forall_expands blank htable expands fun u hu => ?_
      obtain ⟨v, hv, rfl⟩ := hargs a (mem_given ha) u hu
      exact forall_inLine blank v (htaken v hv)
    have hnew := forall_substitute (t := t) (body names) hexpanded
    have replaces := Replaces.call names opening closing arity length each
    refine ih (fun u hu => htakes u (hu.of_leads (.replace replaces)))
      (forall_names hnew fun u hu => hts u (List.mem_append_right _ hu)) ?_
    exact inStep_replaced names hq ht htaken (fun u => place_substitute) hnew

end ShaderPass.Macro
