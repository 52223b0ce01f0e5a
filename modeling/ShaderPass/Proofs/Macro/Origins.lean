import ShaderPass.Macro.Expansion
import ShaderPass.Proofs.Outcome

/-!
# Proofs/Macro/Origins — where the tokens of an expansion come from

Expansion either keeps a token as it is or puts tokens in its place that have the place of the
invocation; `Expands` lists what it can do to a queue of tokens.  So every token of the result is one
of the input or has the place of an identifier of the input that names a macro (`cameFrom_expands`),
and the places follow each other as they did in the input, although replacements are read again
together with what comes after them (`inOrder_expands`).
-/

namespace ShaderPass.Macro

variable {table : Table}

/-! ## What expansion can do -/

/-- Whether the token in front of others stays: no macro replaces it, or the one that does takes an
argument list and none follows. -/
def Table.Keeps (table : Table) (t : Token) (ts : List Token) : Prop :=
  ∀ d, table.applicable t = some d → d.params ≠ none ∧ afterOpening ts = none

/-- What expansion makes of a queue of tokens, case by case; the arguments of a call are expanded one
by one. -/
inductive Expands (table : Table) : List Token → List Token → Prop
  | nil : Expands table [] []
  | keep {t : Token} {ts out : List Token} (keeps : table.Keeps t ts) (rest : Expands table ts out) :
      Expands table (t :: ts) (t :: out)
  | object {t : Token} {ts out : List Token} {d : Definition} (names : table.applicable t = some d)
      (params : d.params = none) (rest : Expands table (d.substitute t [] ++ ts) out) :
      Expands table (t :: ts) out
  | call {t : Token} {ts inside tail out : List Token} {d : Definition}
      {args expanded : List (List Token)} (names : table.applicable t = some d)
      (opening : afterOpening ts = some inside) (closing : arguments inside = some (args, tail))
      (arity : (d.given args).length = d.arity) (length : expanded.length = (d.given args).length)
      (each : ∀ (i : Nat) (a e : List Token),
        (d.given args)[i]? = some a → expanded[i]? = some e → Expands table a e)
      (rest : Expands table (d.substitute t expanded ++ tail) out) : Expands table (t :: ts) out

/-- What is known of each argument and what has been made of it is known of all that has been made
of arguments. -/
theorem exists_argument {R : List Token → List Token → Prop} {args expanded : List (List Token)}
    (length : expanded.length = args.length)
    (each : ∀ (i : Nat) (a e : List Token), args[i]? = some a → expanded[i]? = some e → R a e) :
    ∀ e ∈ expanded, ∃ a ∈ args, R a e := by
  intro e he
  obtain ⟨i, hi, rfl⟩ := List.getElem_of_mem he
  have ha := List.getElem?_eq_getElem (length ▸ hi)
  exact ⟨_, List.mem_of_getElem? ha, each i _ _ ha (List.getElem?_eq_getElem hi)⟩

/-- What is made of a list element by element. -/
theorem mapM_eq_ok {α β ε : Type} {f : α → Except ε β} {as : List α} {bs : List β}
    (h : as.mapM f = .ok bs) :
    bs.length = as.length ∧
      ∀ (i : Nat) (a : α) (b : β), as[i]? = some a → bs[i]? = some b → f a = .ok b := by
  have each := mapM_eq_ok_iff.1 h
  refine ⟨each.length_eq.symm, fun i a b ha hb => ?_⟩
  obtain ⟨hi, rfl⟩ := List.getElem?_eq_some_iff.1 ha
  obtain ⟨hi', rfl⟩ := List.getElem?_eq_some_iff.1 hb
  exact each.get hi hi'

theorem mapM_attach (table : Table) (args : List (List Token)) :
    (args.attach.mapM fun a => expand table a.1) = args.mapM (expand table) := by
  rw [List.mapM_subtype (g := expand table) fun _ _ => rfl, List.unattach_attach]

/-- A macro without a parameter list is not given as many arguments as it has parameters. -/
theorem params_of_arity {inside tail : List Token} {d : Definition} {args : List (List Token)}
    (closing : arguments inside = some (args, tail)) (arity : (d.given args).length = d.arity) :
    d.params ≠ none := by
  intro hnone
  obtain ⟨⟨first, more, rest⟩, -, h⟩ := Option.map_eq_some_iff.1 closing
  cases h
  have given : d.given ((first :: more).map trimTrivia) = (first :: more).map trimTrivia :=
    if_neg fun h => Option.some_ne_none _ (h.1.symm.trans hnone)
  have none : d.arity = 0 := by rw [Definition.arity, hnone]; rfl
  rw [given, none] at arity
  cases arity

/-- The expansion of a queue with the name of a macro that takes arguments in front. -/
theorem expand_call {t : Token} {ts : List Token} {d : Definition}
    (hd : table.applicable t = some d) (hp : d.params ≠ none) : expand table (t :: ts) =
      match afterOpening ts with
      | none => (expand table ts).map (t :: ·)
      | some inside =>
        match arguments inside with
        | none => .error (.unterminatedArguments t.text, t.origin)
        | some (args, tail) =>
          if (d.given args).length ≠ d.arity then
            .error (.arity d.name d.arity (d.given args).length, t.origin)
          else
            match (d.given args).mapM (expand table) with
            | .error fault => .error fault
            | .ok expanded => expand table (d.substitute t expanded ++ tail) := by
  rw [expand, hd]
  simp only [if_neg hp]
  split
  next ho => rw [ho]
  next inside ho =>
    rw [ho]
    split
    next ha => simp only [ha]
    next args tail ha =>
      simp only [ha]
      exact mapM_attach table (d.given args) ▸ rfl

/-- **Expansion does nothing but what is listed.** -/
theorem expands_of_expand {queue out : List Token} (h : expand table queue = .ok out) :
    Expands table queue out := by
  induction queue using expand.induct table generalizing out with
  | case1 =>
    rw [expand] at h
    cases h
    exact .nil
  | case2 t ts hd ih =>
    rw [expand, hd] at h
    obtain ⟨rest, hr, rfl⟩ := map_eq_ok.1 h
    exact .keep (fun d hd' => by cases hd.symm.trans hd') (ih hr)
  | case3 t ts d hd hp ih =>
    rw [expand, hd] at h
    simp only [if_pos hp] at h
    exact .object hd hp (ih h)
  | case4 t ts d hd hp ho ih =>
    simp only [expand_call hd hp, ho] at h
    obtain ⟨rest, hr, rfl⟩ := map_eq_ok.1 h
    exact .keep (fun d' hd' => by cases hd.symm.trans hd'; exact ⟨hp, ho⟩) (ih hr)
  | case5 t ts d hd hp inside ho ha =>
    simp only [expand_call hd hp, ho, ha] at h
    cases h
  | case6 t ts d hd hp inside ho args tail ha hne =>
    simp only [expand_call hd hp, ho, ha, if_pos hne] at h
    cases h
  | case7 t ts d hd hp inside ho args tail ha hne fault hm =>
    rw [mapM_attach] at hm
    simp only [expand_call hd hp, ho, ha, if_neg hne, hm] at h
    cases h
  | case8 t ts d hd hp inside ho args tail ha hne expanded hm ihArgs ih =>
    rw [mapM_attach] at hm
    simp only [expand_call hd hp, ho, ha, if_neg hne, hm] at h
    obtain ⟨hlength, heach⟩ := mapM_eq_ok hm
    exact .call hd ho ha (Decidable.not_not.1 hne) hlength
      (fun i a e hi he => ihArgs ⟨a, List.mem_of_getElem? hi⟩ (heach i a e hi he)) (ih h)

/-! ## Places -/

/-- A macro that replaces a token is named by it. -/
theorem names_of_applicable {t : Token} {d : Definition} (h : table.applicable t = some d) :
    t.kind = .identifier ∧ table.get? t.text = some d := by
  unfold Table.applicable at h
  split at h
  next ht => exact ⟨ht.1, h⟩
  next => cases h

/-- What a lexeme of a body stands for is one of the arguments. -/
theorem mem_of_argumentFor {d : Definition} {l : Lexeme} {args : List (List Token)} {a : List Token}
    (h : d.argumentFor l args = some a) : a ∈ args := by
  unfold Definition.argumentFor at h
  split at h
  next =>
    obtain ⟨i, -, hi⟩ := Option.bind_eq_some_iff.1 h
    exact List.mem_of_getElem? hi
  next => cases h

/-- The tokens that replace an invocation have its place and do not stand there. -/
theorem place_substitute {d : Definition} {t u : Token} {args : List (List Token)}
    (hu : u ∈ d.substitute t args) : u.origin = t.origin ∧ u.verbatim = false := by
  obtain ⟨l, _, hu⟩ := List.mem_flatMap.1 hu
  split at hu
  next tokens _ =>
    obtain ⟨a, _, rfl⟩ := List.mem_map.1 hu
    exact ⟨rfl, rfl⟩
  next =>
    obtain rfl := List.mem_singleton.1 hu
    exact ⟨rfl, rfl⟩

/-- Whether a token is one of some tokens, or has the place of one that names a macro. -/
def Token.CameFrom (table : Table) (input : List Token) (t : Token) : Prop :=
  t ∈ input ∨ t.verbatim = false ∧ ∃ name ∈ input, name.kind = .identifier ∧
    table.isDefined name.text = true ∧ t.origin = name.origin

theorem cameFrom_substitute {d : Definition} {t u : Token} {args : List (List Token)}
    {input : List Token} (ht : t.CameFrom table input) (h : table.applicable t = some d)
    (hu : u ∈ d.substitute t args) : u.CameFrom table input := by
  obtain ⟨horigin, hverbatim⟩ := place_substitute hu
  obtain ⟨hkind, hget⟩ := names_of_applicable h
  refine .inr ⟨hverbatim, ?_⟩
  rcases ht with ht | ⟨-, name, hname, hk, hdef, ho⟩
  · exact ⟨t, ht, hkind, by rw [Table.isDefined, hget]; rfl, horigin⟩
  · exact ⟨name, hname, hk, hdef, horigin.trans ho⟩

/-- What follows an argument list comes after the invocation in the queue. -/
theorem sublist_call {ts inside tail : List Token} {args : List (List Token)}
    (ho : afterOpening ts = some inside) (ha : arguments inside = some (args, tail)) :
    tail.Sublist ts := (sublist_arguments ha).2.trans (sublist_afterOpening ho)

/-- **Every token of an expansion is of the input, or has the place of an identifier of the input
that names a macro.** -/
theorem cameFrom_expands {queue out input : List Token} (h : Expands table queue out)
    (hq : ∀ t ∈ queue, t.CameFrom table input) : ∀ t ∈ out, t.CameFrom table input := by
  induction h with
  | nil => exact hq
  | keep _ _ ih =>
    rw [List.forall_mem_cons] at hq ⊢
    exact ⟨hq.1, ih hq.2⟩
  | object names _ _ ih =>
    rw [List.forall_mem_cons] at hq
    refine ih (List.forall_mem_append.2 ⟨fun u hu => ?_, hq.2⟩)
    exact cameFrom_substitute hq.1 names hu
  | call names opening closing _ _ _ _ _ ih =>
    rw [List.forall_mem_cons] at hq
    refine ih (List.forall_mem_append.2 ⟨fun u hu => ?_, fun u hu => ?_⟩)
    · exact cameFrom_substitute hq.1 names hu
    · exact hq.2 u ((sublist_call opening closing).subset hu)

/-! ## Order -/

namespace Token

/-- The offset that the last byte of a token comes from. -/
def lastOffset (t : Token) : Nat :=
  if t.verbatim then t.origin.offset + (t.text.utf8ByteSize - 1) else t.origin.offset

theorem offset_le_lastOffset (t : Token) : t.origin.offset ≤ t.lastOffset := by
  rw [lastOffset]
  split <;> omega

/-- Whether all of one token comes from a place at or before the other's. -/
def Before (t u : Token) : Prop := t.lastOffset ≤ u.origin.offset

/-- A token that came from others lies between their first and last offsets. -/
theorem CameFrom.exists_between {input : List Token} {t : Token} (h : t.CameFrom table input) :
    ∃ u ∈ input, u.origin.unit = t.origin.unit ∧ u.origin.offset ≤ t.origin.offset ∧
      t.lastOffset ≤ u.lastOffset := by
  rcases h with h | ⟨hv, name, hname, -, -, ho⟩
  · exact ⟨t, h, rfl, Nat.le_refl _, Nat.le_refl _⟩
  · refine ⟨name, hname, by rw [ho], Nat.le_of_eq (by rw [ho]), ?_⟩
    rw [lastOffset, hv, if_neg Bool.false_ne_true, ho]
    exact name.offset_le_lastOffset

end Token

/-- A replacement stands in order before what comes after the invocation. -/
theorem inOrder_substitute {d : Definition} {t : Token} {ts : List Token} (args : List (List Token))
    (h : (t :: ts).Pairwise Token.Before) : (d.substitute t args ++ ts).Pairwise Token.Before := by
  obtain ⟨ht, hts⟩ := List.pairwise_cons.1 h
  have hlast : ∀ u ∈ d.substitute t args, u.lastOffset = t.origin.offset := fun u hu => by
    obtain ⟨ho, hv⟩ := place_substitute hu
    rw [Token.lastOffset, hv, if_neg Bool.false_ne_true, ho]
  refine List.pairwise_append.2 ⟨?_, hts, fun u hu v hv => ?_⟩
  · refine List.pairwise_iff_getElem.2 fun i j hi hj _ => ?_
    refine Nat.le_of_eq ?_
    rw [hlast _ (List.getElem_mem hi), (place_substitute (List.getElem_mem hj)).1]
  · rw [Token.Before, hlast u hu]
    exact Nat.le_trans t.offset_le_lastOffset (ht v hv)

/-- **The tokens of an expansion come from places in the order of the input.** -/
theorem inOrder_expands {queue out : List Token} (h : Expands table queue out)
    (hq : queue.Pairwise Token.Before) : out.Pairwise Token.Before := by
  induction h with
  | nil => exact hq
  | keep _ rest ih =>
    obtain ⟨ht, hts⟩ := List.pairwise_cons.1 hq
    refine List.pairwise_cons.2 ⟨fun u hu => ?_, ih hts⟩
    obtain ⟨v, hv, -, hle, -⟩ := (cameFrom_expands rest (fun _ => .inl) u hu).exists_between
    exact Nat.le_trans (ht v hv) hle
  | object _ _ _ ih => exact ih (inOrder_substitute [] hq)
  | call _ opening closing _ _ _ _ _ ih =>
    exact ih (inOrder_substitute _ (hq.sublist ((sublist_call opening closing).cons_cons _)))

end ShaderPass.Macro
