import Mathlib
import ShaderPass.Proofs.Macro.Origins

/-!
# Proofs/Macro/Termination — expansion comes to an end, whatever the macros are

    X ↦ X + 1        X ──▸ X + 1               the second X hides X and stays
    F(x) ↦ F(x) x    F(F(a)) ──▸ F(a), then …  the argument first, then what it is put into

One queue of tokens **leads** to another when expanding it needs the other expanded: what is left
behind a token that stays or that has been replaced, and each argument.  A replacement hides one macro
more than the invocation (`hides_of_replaces`), and hide sets never hold anything but macros, each
once (`hidesMacros_leads`).  So each step leads down (`below_of_leads`), and every queue has an
outcome, a list of tokens or a fault (`expand_terminates`).
-/

namespace ShaderPass.Macro

open Relation (ReflTransGen)

variable {table : Table} {t : Token} {ts queue queue' out new rest : List Token} {d : Definition}

/-! ## What expansion does to a queue -/

/-- The token in front of others is replaced: `new` are the tokens in its place, and `rest` those
that follow them.  The arguments of a call have been expanded before. -/
inductive Replaces (table : Table) (t : Token) (ts : List Token) (d : Definition) :
    List Token → List Token → Prop
  | object (names : table.applicable t = some d) (params : d.params = none) :
      Replaces table t ts d (d.substitute t []) ts
  | call {inside tail : List Token} {args expanded : List (List Token)}
      (names : table.applicable t = some d) (opening : afterOpening ts = some inside)
      (closing : arguments inside = some (args, tail)) (arity : (d.given args).length = d.arity)
      (length : expanded.length = (d.given args).length)
      (each : ∀ (i : Nat) (a e : List Token),
        (d.given args)[i]? = some a → expanded[i]? = some e → Expands table a e) :
      Replaces table t ts d (d.substitute t expanded) tail

/-- One queue **leads** to another: to expand the one, the other is expanded. -/
inductive Leads (table : Table) : List Token → List Token → Prop
  | keep {t : Token} {ts : List Token} (keeps : table.Keeps t ts) : Leads table (t :: ts) ts
  | replace {t : Token} {ts new rest : List Token} {d : Definition}
      (replaces : Replaces table t ts d new rest) : Leads table (t :: ts) (new ++ rest)
  | argument {t : Token} {ts inside tail a : List Token} {d : Definition}
      {args : List (List Token)} (names : table.applicable t = some d)
      (opening : afterOpening ts = some inside) (closing : arguments inside = some (args, tail))
      (mem : a ∈ d.given args) : Leads table (t :: ts) a

/-- How the expansion of a queue fails, case by case: at an invocation, or on a queue that it leads
to.  Of the arguments of a call, the first that cannot be expanded is at fault. -/
inductive Faults (table : Table) : List Token → Fault × Origin → Prop
  | keep {t : Token} {ts : List Token} {fault : Fault × Origin} (keeps : table.Keeps t ts)
      (rest : Faults table ts fault) : Faults table (t :: ts) fault
  | replace {t : Token} {ts new rest : List Token} {d : Definition} {fault : Fault × Origin}
      (replaces : Replaces table t ts d new rest) (rest : Faults table (new ++ rest) fault) :
      Faults table (t :: ts) fault
  | unterminated {t : Token} {ts inside : List Token} {d : Definition}
      (names : table.applicable t = some d) (params : d.params ≠ none)
      (opening : afterOpening ts = some inside) (closing : arguments inside = none) :
      Faults table (t :: ts) (.unterminatedArguments t.text, t.origin)
  | arity {t : Token} {ts inside tail : List Token} {d : Definition} {args : List (List Token)}
      (names : table.applicable t = some d) (params : d.params ≠ none)
      (opening : afterOpening ts = some inside) (closing : arguments inside = some (args, tail))
      (arity : (d.given args).length ≠ d.arity) :
      Faults table (t :: ts) (.arity d.name d.arity (d.given args).length, t.origin)
  | argument {t : Token} {ts inside tail a : List Token} {d : Definition}
      {args : List (List Token)} {fault : Fault × Origin} {i : Nat}
      (names : table.applicable t = some d) (opening : afterOpening ts = some inside)
      (closing : arguments inside = some (args, tail)) (arity : (d.given args).length = d.arity)
      (earlier : ∀ j < i, ∀ b, (d.given args)[j]? = some b → ∃ e, Expands table b e)
      (at_ : (d.given args)[i]? = some a) (faults : Faults table a fault) :
      Faults table (t :: ts) fault

/-! ## Hide sets -/

/-- A replacement takes the place of tokens of the queue, and each of its tokens hides what the
invocation does and, on top of that, the name that is replaced. -/
theorem hides_of_replaces (h : Replaces table t ts d new rest) : table.applicable t = some d ∧
    d.name ∉ t.hide ∧ (∀ u ∈ new, d.name ∈ u.hide ∧ ∀ name ∈ t.hide, name ∈ u.hide) ∧
    rest.Sublist ts := by
  have hides : ∀ {args : List (List Token)}, ∀ u ∈ d.substitute t args,
      d.name ∈ u.hide ∧ ∀ name ∈ t.hide, name ∈ u.hide := fun u hu =>
    ⟨subset_hide_substitute hu _ (by simp),
      fun name hname => subset_hide_substitute hu name (by simp [hname])⟩
  cases h with
  | object names _ => exact ⟨names, (name_notMem_hide names).2, hides, List.Sublist.refl ts⟩
  | call names opening closing _ _ _ =>
    exact ⟨names, (name_notMem_hide names).2, hides, sublist_call opening closing⟩

/-- Whether a token hides nothing but names of macros, and none of them twice. -/
structure Token.HidesMacros (table : Table) (t : Token) : Prop where
  nodup : t.hide.Nodup
  defined : ∀ name ∈ t.hide, table.isDefined name = true

theorem hidesMacros_of_sublist {a : List Token} (h : (a.map Token.hide).Sublist (ts.map Token.hide))
    (hts : ∀ u ∈ ts, u.HidesMacros table) : ∀ u ∈ a, u.HidesMacros table := by
  intro u hu
  obtain ⟨v, hv, hhide⟩ := List.mem_map.1 (h.subset (List.mem_map_of_mem hu))
  obtain ⟨nodup, defined⟩ := hts v hv
  rw [hhide] at nodup defined
  exact ⟨nodup, defined⟩

theorem nodup_unite {names more : List String} (h : names.Nodup) (h' : more.Nodup) :
    (unite names more).Nodup := by
  refine List.nodup_append.2 ⟨h, h'.filter _, fun a ha b hb hab => ?_⟩
  have hb := (List.mem_filter.1 hb).2
  exact of_decide_eq_true hb (hab ▸ ha)

/-- The hide sets of a replacement are those of an argument and of the invocation put together, and
the name that is replaced is new to the invocation. -/
theorem hidesMacros_substitute {args : List (List Token)} (ht : t.HidesMacros table)
    (names : table.applicable t = some d) (hargs : ∀ a ∈ args, ∀ u ∈ a, u.HidesMacros table) :
    ∀ u ∈ d.substitute t args, u.HidesMacros table := by
  obtain ⟨hmem, hnot⟩ := name_notMem_hide names
  have nodup : (t.hide ++ [d.name]).Nodup :=
    List.nodup_append.2 ⟨ht.nodup, by simp, fun a ha b hb hab =>
      hnot (List.mem_singleton.1 hb ▸ hab ▸ ha)⟩
  have defined : ∀ name ∈ t.hide ++ [d.name], table.isDefined name = true := by
    refine List.forall_mem_append.2 ⟨ht.defined, List.forall_mem_singleton.2 ?_⟩
    rw [Table.isDefined, Table.get?_of_mem hmem]
    rfl
  intro u hu
  obtain ⟨l, -, hu⟩ := List.mem_flatMap.1 hu
  split at hu
  next tokens hfor =>
    obtain ⟨a, ha, rfl⟩ := List.mem_map.1 hu
    obtain ⟨hnodup, hdefined⟩ := hargs tokens (mem_of_argumentFor hfor) a ha
    refine ⟨nodup_unite hnodup nodup, List.forall_mem_append.2 ⟨hdefined, fun name hname => ?_⟩⟩
    exact defined name (List.mem_filter.1 hname).1
  next =>
    obtain rfl := List.mem_singleton.1 hu
    exact ⟨nodup, defined⟩

/-- The arguments of a call, and what follows it, hide nothing but macros. -/
theorem hidesMacros_arguments {inside tail : List Token} {args : List (List Token)}
    (opening : afterOpening ts = some inside) (closing : arguments inside = some (args, tail))
    (hts : ∀ u ∈ ts, u.HidesMacros table) :
    (∀ a ∈ d.given args, ∀ u ∈ a, u.HidesMacros table) ∧ ∀ u ∈ tail, u.HidesMacros table := by
  refine ⟨fun a ha => ?_, fun u hu => hts u ((sublist_call opening closing).subset hu)⟩
  have hargs := (sublist_arguments closing).1 a (mem_given ha)
  exact hidesMacros_of_sublist (hargs.trans ((sublist_afterOpening opening).map _)) hts

/-- Expansion keeps it so. -/
theorem hidesMacros_expands (h : Expands table queue out) (hq : ∀ u ∈ queue, u.HidesMacros table) :
    ∀ u ∈ out, u.HidesMacros table := by
  induction h with
  | nil => exact hq
  | keep _ _ ih =>
    obtain ⟨ht, hts⟩ := List.forall_mem_cons.1 hq
    exact List.forall_mem_cons.2 ⟨ht, ih hts⟩
  | object names _ _ ih =>
    obtain ⟨ht, hts⟩ := List.forall_mem_cons.1 hq
    exact ih (List.forall_mem_append.2 ⟨hidesMacros_substitute ht names (by simp), hts⟩)
  | call names opening closing _ length _ _ ihArgs ih =>
    obtain ⟨ht, hts⟩ := List.forall_mem_cons.1 hq
    obtain ⟨hargs, htail⟩ := hidesMacros_arguments opening closing hts
    refine ih (List.forall_mem_append.2 ⟨hidesMacros_substitute ht names fun e he => ?_, htail⟩)
    obtain ⟨a, ha, expands⟩ := exists_argument length ihArgs e he
    exact expands (hargs a ha)

theorem hidesMacros_replaces (h : Replaces table t ts d new rest) (ht : t.HidesMacros table)
    (hts : ∀ u ∈ ts, u.HidesMacros table) : ∀ u ∈ new ++ rest, u.HidesMacros table := by
  cases h with
  | object names _ =>
    exact List.forall_mem_append.2 ⟨hidesMacros_substitute ht names (by simp), hts⟩
  | call names opening closing _ length each =>
    obtain ⟨hargs, htail⟩ := hidesMacros_arguments opening closing hts
    refine List.forall_mem_append.2 ⟨hidesMacros_substitute ht names fun e he => ?_, htail⟩
    obtain ⟨a, ha, expands⟩ := exists_argument length each e he
    exact hidesMacros_expands expands (hargs a ha)

/-- **Hide sets stay lists of macros**, each of them once. -/
theorem hidesMacros_leads (h : Leads table queue queue') (hq : ∀ u ∈ queue, u.HidesMacros table) :
    ∀ u ∈ queue', u.HidesMacros table := by
  cases h with
  | keep _ => exact (List.forall_mem_cons.1 hq).2
  | replace replaces =>
    obtain ⟨ht, hts⟩ := List.forall_mem_cons.1 hq
    exact hidesMacros_replaces replaces ht hts
  | argument _ opening closing mem =>
    exact (hidesMacros_arguments opening closing (List.forall_mem_cons.1 hq).2).1 _ mem

/-! ## Every sequence of steps ends -/

/-- **Each step leads down**: the numbers of macros that the tokens do not hide get less. -/
theorem below_of_leads (h : Leads table queue queue') :
    Below (table.ranks queue') (table.ranks queue) := by
  cases h with
  | keep _ => exact Below.tail _ _
  | replace replaces =>
    cases replaces with
    | object names _ => exact below_replace names [] (List.Sublist.refl _)
    | call names opening closing _ _ _ =>
      exact below_replace names _ (sublist_call opening closing)
  | argument names opening closing mem =>
    have hargs := (sublist_arguments closing).1 _ (mem_given mem)
    exact below_argument (hargs.trans ((sublist_afterOpening opening).map _))

theorem wellFounded_leads (table : Table) :
    WellFounded fun queue' queue => Leads table queue queue' :=
  Subrelation.wf below_of_leads (InvImage.wf table.ranks wellFounded_below)

/-! ## Every queue has an outcome -/

/-- A list of which one element fails has a first one that does. -/
private theorem mapM_eq_error {α β ε : Type} {f : α → Except ε β} {as : List α} {e : ε}
    (h : as.mapM f = .error e) : ∃ (i : Nat) (a : α), as[i]? = some a ∧ f a = .error e ∧
      ∀ j < i, ∀ b : α, as[j]? = some b → ∃ c, f b = .ok c := by
  obtain ⟨before, a, after, rfl, earlier, ha⟩ := exists_of_mapM_eq_error h
  refine ⟨before.length, a, by simp, ha, fun j hj b hb => ?_⟩
  rw [List.getElem?_append_left hj] at hb
  exact earlier b (List.mem_of_getElem? hb)

/-- **Expansion fails for no other reasons than those listed.** -/
theorem faults_of_expand {fault : Fault × Origin} (h : expand table queue = .error fault) :
    Faults table queue fault := by
  induction queue using expand.induct table with
  | case1 =>
    rw [expand] at h
    cases h
  | case2 t ts hd ih =>
    rw [expand, hd] at h
    exact .keep (fun d hd' => by cases hd.symm.trans hd') (ih (map_eq_error.1 h))
  | case3 t ts d hd hp ih =>
    rw [expand, hd] at h
    simp only [if_pos hp] at h
    exact .replace (.object hd hp) (ih h)
  | case4 t ts d hd hp ho ih =>
    simp only [expand_call hd hp, ho] at h
    exact .keep (fun d' hd' => by cases hd.symm.trans hd'; exact ⟨hp, ho⟩) (ih (map_eq_error.1 h))
  | case5 t ts d hd hp inside ho ha =>
    simp only [expand_call hd hp, ho, ha] at h
    cases h
    exact .unterminated hd hp ho ha
  | case6 t ts d hd hp inside ho args tail ha hne =>
    simp only [expand_call hd hp, ho, ha, if_pos hne] at h
    cases h
    exact .arity hd hp ho ha hne
  | case7 t ts d hd hp inside ho args tail ha hne fault' hm ih =>
    rw [mapM_attach] at hm
    simp only [expand_call hd hp, ho, ha, if_neg hne, hm] at h
    cases h
    obtain ⟨i, a, hi, hfails, earlier⟩ := mapM_eq_error hm
    refine .argument hd ho ha (Decidable.not_not.1 hne) (fun j hj b hb => ?_) hi
      (ih ⟨a, List.mem_of_getElem? hi⟩ hfails)
    obtain ⟨e, he⟩ := earlier j hj b hb
    exact ⟨e, expands_of_expand he⟩
  | case8 t ts d hd hp inside ho args tail ha hne expanded hm ihArgs ih =>
    rw [mapM_attach] at hm
    simp only [expand_call hd hp, ho, ha, if_neg hne, hm] at h
    obtain ⟨hlength, heach⟩ := mapM_eq_ok hm
    exact .replace (.call hd ho ha (Decidable.not_not.1 hne) hlength
      fun i a e hi he => expands_of_expand (heach i a e hi he)) (ih h)

/-- **Expansion comes to an end.**  A replacement puts in nothing but tokens that hide what the
invocation does and the name that is replaced, which the invocation did not hide.  From tokens that
hide nothing on, all tokens hide nothing but macros, each of them once.  Each step leads down in an
order in which nothing leads down for ever, and every queue is expanded or has a fault. -/
theorem expand_terminates (table : Table) :
    (∀ t ts d new rest, Replaces table t ts d new rest → d.name = t.text ∧ d.name ∉ t.hide ∧
      (∀ u ∈ new, d.name ∈ u.hide ∧ ∀ name ∈ t.hide, name ∈ u.hide) ∧ rest.Sublist ts) ∧
    (∀ queue, (∀ t ∈ queue, t.hide = []) →
      (∀ queue', ReflTransGen (Leads table) queue queue' → ∀ t ∈ queue', t.HidesMacros table) ∧
      ∀ out, expand table queue = .ok out → ∀ t ∈ out, t.HidesMacros table) ∧
    (∀ queue queue', Leads table queue queue' → Below (table.ranks queue') (table.ranks queue)) ∧
    (WellFounded fun queue' queue => Leads table queue queue') ∧
    ∀ queue, (∃ out, expand table queue = .ok out ∧ Expands table queue out) ∨
      ∃ fault, expand table queue = .error fault ∧ Faults table queue fault := by
  refine ⟨fun t ts d new rest h => ?_, fun queue hq => ?_, fun _ _ => below_of_leads,
    wellFounded_leads table, fun queue => ?_⟩
  · obtain ⟨names, hnot, hides, tail⟩ := hides_of_replaces h
    exact ⟨Table.name_of_get? (names_of_applicable names).2, hnot, hides, tail⟩
  · have start : ∀ t ∈ queue, t.HidesMacros table := fun t ht => by
      refine ⟨?_, ?_⟩ <;> rw [hq t ht]
      · exact .nil
      · exact fun name hname => absurd hname List.not_mem_nil
    refine ⟨fun queue' h => ?_, fun out h => hidesMacros_expands (expands_of_expand h) start⟩
    induction h with
    | refl => exact start
    | tail _ leads ih => exact hidesMacros_leads leads ih
  · cases h : expand table queue with
    | ok out => exact .inl ⟨out, rfl, expands_of_expand h⟩
    | error fault => exact .inr ⟨fault, rfl, faults_of_expand h⟩

/-- Two macros that stand for each other. -/
theorem expand_terminates_apply :
    let table := (Table.empty.define ⟨"A", none, [⟨.identifier, "B"⟩]⟩).define
      ⟨"B", none, [⟨.identifier, "A"⟩]⟩
    let a : Token := ⟨⟨.identifier, "A"⟩, ⟨0, 0⟩, true, []⟩
    let b : Token := ⟨⟨.identifier, "B"⟩, ⟨0, 0⟩, false, ["A"]⟩
    let a' : Token := ⟨⟨.identifier, "A"⟩, ⟨0, 0⟩, false, ["A", "B"]⟩
    Leads table [a] [b] ∧ b.HidesMacros table ∧ expand table [a] = .ok [a'] ∧
      a'.HidesMacros table := by
  intro table a b a'
  have leads : Leads table [a] [b] :=
    .replace (d := ⟨"A", none, [⟨.identifier, "B"⟩]⟩) (.object rfl rfl)
  have expands : expand table [a] = .ok [a'] := by cbv
  obtain ⟨-, hides, -⟩ := expand_terminates table
  obtain ⟨onTheWay, atTheEnd⟩ := hides [a] (by decide)
  exact ⟨leads, onTheWay [b] (.single leads) b List.mem_cons_self, expands,
    atTheEnd [a'] expands a' List.mem_cons_self⟩

end ShaderPass.Macro
