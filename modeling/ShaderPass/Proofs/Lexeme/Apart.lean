import ShaderPass.Proofs.Lexeme.Forms

/-!
# Proofs/Lexeme/Apart — when a lexeme ends where its text does

    "ab" ++ "("     reads  ab, (          "/" ++ "="    reads  /, =
    "ab" ++ "c"     reads  abc            "/" ++ "*"    begins a comment

Whether a lexeme ends where its text does depends on the next character alone: it must not **run
into** that one.  White space and line comments apart, a text begins with a lexeme if and only if
the lexeme is read from its own text and does not run on into the rest (`begins_append`).
-/

namespace ShaderPass.Lexeme

open Form

/-! ## A first part of a text -/

namespace Form

/-- Whether a text is read, strictly, as a first part of some kind and then the rest. -/
def Begins (k : Kind) (u text : List Char) : Prop :=
  u ≠ [] ∧ form text = (k, u.length) ∧ (k = .punct → fault? .strict text = none)

/-- Whether a first part of some kind runs on into a character that comes right after it. -/
def runsInto (k : Kind) (u : List Char) (c : Char) : Bool :=
  match k with
  | .identifier => isIdentifierPart c
  | .number => isNumberPart c || endsInExponent u c
  | .punct => u == ['/'] && (c == '/' || c == '*') || u == ['.'] && c.isDigit
  | _ => false

/-- Whether a first part of some kind runs on into the rest of a text. -/
def runsOn (k : Kind) (u rest : List Char) : Bool := rest.head?.any (runsInto k u)

variable {k k' : Kind} {pre u rest : List Char} {c : Char}

theorem runsOn_closed {k : Kind} (h : ∀ u c, runsInto k u c = false) (u rest : List Char) :
    runsOn k u rest = false := by
  cases rest with
  | nil => rfl
  | cons c rest => exact h u c

/-- A first part whose form is known, and how far it reaches, from its beginning. -/
theorem begins_measured (pre : List Char) {n : List Char → Nat}
    (hform : ∀ text, form (pre ++ text) = (k', n text))
    (hk : k' ≠ .punct) (happend : n (u ++ rest) = (pre ++ u).length ↔
      n u = (pre ++ u).length ∧ runsOn k' (pre ++ u) rest = false) :
    Begins k (pre ++ u) (pre ++ u ++ rest) ↔
      Begins k (pre ++ u) (pre ++ u) ∧ runsOn k (pre ++ u) rest = false := by
  rw [Begins, Begins, List.append_assoc, hform, hform, Prod.mk.injEq, Prod.mk.injEq]
  constructor
  · rintro ⟨hne, ⟨rfl, hn⟩, -⟩
    obtain ⟨hn, hruns⟩ := happend.1 hn
    exact ⟨⟨hne, ⟨rfl, hn⟩, fun h => absurd h hk⟩, hruns⟩
  · rintro ⟨⟨hne, ⟨rfl, hn⟩, -⟩, hruns⟩
    exact ⟨hne, ⟨rfl, happend.2 ⟨hn, hruns⟩⟩, fun h => absurd h hk⟩

/-- A first part is of the kind, and as long, as the form says. -/
theorem not_begins {n : Nat} {text : List Char} (h : form text = (k', n))
    (hne : ¬(k = k' ∧ u.length = n)) : ¬Begins k u text := by
  rintro ⟨-, hform, -⟩
  rw [h, Prod.mk.injEq] at hform
  exact hne ⟨hform.1.symm, hform.2.symm⟩

/-- A first part that neither text begins with. -/
theorem begins_iff_of_not (h : ¬Begins k u (u ++ rest)) (h' : ¬Begins k u u) :
    Begins k u (u ++ rest) ↔ Begins k u u ∧ runsOn k u rest = false :=
  iff_of_false h fun hb => h' hb.1

/-- A first part that both texts are read as, and that runs on into nothing. -/
theorem begins_closed (hp : k' ≠ .punct) (hruns : ∀ u c, runsInto k' u c = false)
    (h : form u = (k', u.length)) (h' : form (u ++ rest) = (k', u.length)) :
    Begins k u (u ++ rest) ↔ Begins k u u ∧ runsOn k u rest = false := by
  constructor
  · rintro ⟨hne, hform, -⟩
    obtain ⟨rfl, -⟩ := Prod.mk.inj (h'.symm.trans hform)
    exact ⟨⟨hne, h, fun he => absurd he hp⟩, runsOn_closed hruns u rest⟩
  · rintro ⟨⟨hne, hform, -⟩, -⟩
    obtain ⟨rfl, -⟩ := Prod.mk.inj (h.symm.trans hform)
    exact ⟨hne, h', fun he => absurd he hp⟩

/-- A single character that is punctuation, whatever follows it or as long as it does not run on. -/
theorem begins_single (hform : form [c] = (.punct, 1)) (hfault : fault? .strict [c] = none)
    (hrest : runsOn .punct [c] rest = false → form (c :: rest) = (.punct, 1) ∧
      fault? .strict (c :: rest) = none)
    (hruns : runsOn .punct [c] rest = true → ¬Begins k [c] (c :: rest)) :
    Begins k [c] (c :: rest) ↔ Begins k [c] [c] ∧ runsOn k [c] rest = false := by
  constructor
  · intro h
    cases hr : runsOn .punct [c] rest with
    | true => exact absurd h (hruns hr)
    | false =>
      have hk : k = .punct := by
        have := h.2.1
        rw [(hrest hr).1, Prod.mk.injEq] at this
        exact this.1.symm
      subst hk
      exact ⟨⟨by simp, hform, fun _ => hfault⟩, hr⟩
  · rintro ⟨⟨-, hk, -⟩, hr⟩
    rw [hform, Prod.mk.injEq] at hk
    obtain ⟨rfl, -⟩ := hk
    exact ⟨by simp, (hrest hr).1, fun _ => (hrest hr).2⟩

theorem begins_space (hs : isSpace c = true) (hw : k ≠ .whitespace) :
    Begins k (c :: u) (c :: u ++ rest) ↔
      Begins k (c :: u) (c :: u) ∧ runsOn k (c :: u) rest = false := by
  have hn : c ≠ '\n' := by
    rintro rfl
    exact absurd hs (by decide)
  have white : ∀ {text}, newline (c :: text) = 0 → ¬Begins k (c :: u) (c :: text) := fun h =>
    not_begins (form_space hs h) fun he => hw he.1
  by_cases hcr : c = '\r'
  · subst hcr
    cases u with
    | nil =>
      have hright : ¬Begins k ['\r'] ['\r'] := white rfl
      have hleft : ¬Begins k ['\r'] ('\r' :: rest) := by
        cases hnl : newline ('\r' :: rest) with
        | zero => exact white hnl
        | succ n =>
          unfold newline at hnl
          split at hnl
          next he =>
            obtain rfl := (List.cons.inj he).2
            exact not_begins (form_crlf _) (by simp)
          next he => cases he
          next => cases hnl
      exact begins_iff_of_not hleft hright
    | cons d u =>
      by_cases hd : d = '\n'
      · subst hd
        refine begins_measured ['\r', '\n'] form_crlf (by decide) ?_
        rw [runsOn_closed fun _ _ => rfl]
        simp
      · have hnl : ∀ text, newline ('\r' :: d :: text) = 0 := fun text => by
          unfold newline
          split <;> simp_all
        exact begins_iff_of_not (white (hnl _)) (white (hnl _))
  · have hnl := newline_eq_zero hcr hn
    exact begins_iff_of_not (white (hnl _)) (white (hnl _))

theorem not_begins_blockComment {text : List Char} (h : commentClose text ≠ some u.length) :
    ¬Begins k ('/' :: '*' :: u) ('/' :: '*' :: text) := by
  cases hc : commentClose text with
  | none =>
    have hb : blockComment ('/' :: '*' :: text) = 0 := by rw [blockComment, hc]
    exact not_begins (form_slash rfl hb) (by simp)
  | some n =>
    refine not_begins (form_blockComment hc) fun he => h ?_
    rw [hc, Nat.add_right_cancel (show n + 2 = u.length + 2 from he.2.symm)]

/-- A block comment ends where it is first closed, whatever comes after it. -/
theorem begins_blockComment : Begins k ('/' :: '*' :: u) ('/' :: '*' :: u ++ rest) ↔
    Begins k ('/' :: '*' :: u) ('/' :: '*' :: u) ∧ runsOn k ('/' :: '*' :: u) rest = false := by
  by_cases hclose : commentClose u = some u.length
  · exact begins_closed (by decide) (fun _ _ => rfl) (form_blockComment hclose)
      (form_blockComment (commentClose_append.2 hclose))
  · exact begins_iff_of_not (not_begins_blockComment (mt commentClose_append.1 hclose))
      (not_begins_blockComment hclose)

/-- A slash and an asterisk are a comment or a fault. -/
theorem not_begins_opening : ¬Begins k ['/'] ('/' :: '*' :: rest) := by
  rintro ⟨-, hform, hfault⟩
  cases hclose : commentClose rest with
  | none =>
    have hb : blockComment ('/' :: '*' :: rest) = 0 := by rw [blockComment, hclose]
    rw [form_slash rfl hb, Prod.mk.injEq] at hform
    cases hfault hform.1.symm
  | some n =>
    rw [form_blockComment hclose, Prod.mk.injEq] at hform
    simp at hform

/-- Two slashes are a line comment. -/
theorem not_begins_slashes (hc : k ≠ .lineComment) (text : List Char) :
    ¬Begins k u ('/' :: '/' :: text) := not_begins (form_lineComment text) fun he => hc he.1

/-- A slash that begins no comment is punctuation. -/
theorem form_slash_cons {d : Char} {text : List Char} (hd : d ≠ '/') (hd' : d ≠ '*') :
    form ('/' :: d :: text) = (.punct, 1) := by
  refine form_slash ?_ ?_
  · rw [lineComment]
    rintro text he
    exact hd (List.cons.inj (List.cons.inj he).2).1
  · rw [blockComment]
    rintro text he
    exact hd' (List.cons.inj (List.cons.inj he).2).1

theorem begins_slash_nil (hc : k ≠ .lineComment) : Begins k ['/'] ('/' :: rest) ↔
    Begins k ['/'] ['/'] ∧ runsOn k ['/'] rest = false := by
  refine begins_single (form_slash rfl rfl) rfl (fun hr => ?_) (fun hr => ?_)
  · cases rest with
    | nil => exact ⟨form_slash rfl rfl, rfl⟩
    | cons d rest =>
      have hd : (d == '/' || d == '*') = false := by simpa [runsOn, runsInto] using hr
      simp only [Bool.or_eq_false_iff, beq_eq_false_iff_ne] at hd
      refine ⟨form_slash_cons hd.1 hd.2, ?_⟩
      unfold fault?
      split <;> simp_all
  · cases rest with
    | nil => cases hr
    | cons d rest =>
      have hd : d = '/' ∨ d = '*' := by simpa [runsOn, runsInto] using hr
      rcases hd with rfl | rfl
      · exact not_begins_slashes hc _
      · exact not_begins_opening

theorem begins_slash (hc : k ≠ .lineComment) : Begins k ('/' :: u) ('/' :: u ++ rest) ↔
    Begins k ('/' :: u) ('/' :: u) ∧ runsOn k ('/' :: u) rest = false := by
  cases u with
  | nil => exact begins_slash_nil hc
  | cons d u =>
    by_cases hslash : d = '/'
    · subst hslash
      exact begins_iff_of_not (not_begins_slashes hc _) (not_begins_slashes hc _)
    by_cases hstar : d = '*'
    · subst hstar
      exact begins_blockComment
    have hno : ∀ text, ¬Begins k ('/' :: d :: u) ('/' :: d :: text) := fun text =>
      not_begins (form_slash_cons hslash hstar) (by simp)
    exact begins_iff_of_not (hno _) (hno _)

theorem begins_dot : Begins k ('.' :: u) ('.' :: u ++ rest) ↔
    Begins k ('.' :: u) ('.' :: u) ∧ runsOn k ('.' :: u) rest = false := by
  cases u with
  | nil =>
    refine begins_single (form_dot rfl) rfl (fun hr => ?_) (fun hr => ?_)
    · have hd : rest.head?.any (·.isDigit) = false := by
        cases rest with
        | nil => rfl
        | cons d rest => simpa [runsOn, runsInto] using hr
      exact ⟨form_dot hd, by rw [fault?] <;> simp⟩
    · cases rest with
      | nil => cases hr
      | cons d rest =>
        have hd : d.isDigit = true := by simpa [runsOn, runsInto] using hr
        exact not_begins (form_dot_digit hd rest) (by simp)
  | cons d u =>
    by_cases hd : d.isDigit = true
    · refine begins_measured ['.', d] (form_dot_digit hd) (by decide) ?_
      have happend := numberTail_append u rest
      rw [← endsInExponent_cons (not_exponent_of_digit hd),
        ← endsInExponent_cons (c := '.') fun _ => rfl] at happend
      show numberTail _ + 2 = u.length + 2 ↔ numberTail _ + 2 = u.length + 2 ∧ _
      rw [Nat.add_right_cancel_iff, Nat.add_right_cancel_iff]
      exact happend
    · have hno : ∀ text, ¬Begins k ('.' :: d :: u) ('.' :: d :: text) := fun text =>
        not_begins (form_dot (by simpa using hd)) (by simp)
      exact begins_iff_of_not (hno _) (hno _)

theorem begins_quoted {quote : Char} (hq : quote ≠ '\\') (hp : k' ≠ .punct)
    (hform : ∀ text, form (quote :: text) =
      if quoted quote (quote :: text) ≠ 0 then (k', quoted quote (quote :: text)) else (.punct, 1))
    (hfault : ∀ text, fault? .strict (quote :: text) ≠ none)
    (hruns : ∀ u c, runsInto k' u c = false) : Begins k (quote :: u) (quote :: u ++ rest) ↔
      Begins k (quote :: u) (quote :: u) ∧ runsOn k (quote :: u) rest = false := by
  have closed : ∀ {text}, quoteClose quote text = some u.length →
      form (quote :: text) = (k', (quote :: u).length) := fun {text} h => by
    have hquoted : quoted quote (quote :: text) = u.length + 1 := by
      rw [quoted, if_pos rfl, h]
    rw [hform, hquoted, if_pos (Nat.succ_ne_zero _), List.length_cons]
  have unclosed : ∀ {text}, quoteClose quote text ≠ some u.length →
      ¬Begins k (quote :: u) (quote :: text) := fun {text} h => by
    rintro ⟨-, hf, hnone⟩
    rw [hform] at hf
    cases hc : quoteClose quote text with
    | none =>
      have hquoted : quoted quote (quote :: text) = 0 := by rw [quoted, if_pos rfl, hc]
      rw [hquoted, if_neg (by simp), Prod.mk.injEq] at hf
      exact hfault text (hnone hf.1.symm)
    | some n =>
      have hquoted : quoted quote (quote :: text) = n + 1 := by rw [quoted, if_pos rfl, hc]
      rw [hquoted, if_pos (Nat.succ_ne_zero _), Prod.mk.injEq] at hf
      exact h (hc.trans (congrArg some (Nat.add_right_cancel (m := 1) hf.2)))
  by_cases hclose : quoteClose quote u = some u.length
  · exact begins_closed hp hruns (closed hclose) (closed ((quoteClose_append hq).2 hclose))
  · exact begins_iff_of_not (unclosed (mt (quoteClose_append hq).1 hclose)) (unclosed hclose)

/-- **White space and line comments apart, a text begins with a part if and only if the part is read
from its own text and does not run on into the rest.** -/
theorem begins_append (hw : k ≠ .whitespace) (hc : k ≠ .lineComment) :
    Begins k u (u ++ rest) ↔ Begins k u u ∧ runsOn k u rest = false := by
  cases u with
  | nil => simp [Begins]
  | cons c u =>
    by_cases hs : isSpace c = true
    · exact begins_space hs hw
    by_cases hn : c = '\n'
    · subst hn
      refine begins_measured ['\n'] form_newline (by decide) ?_
      rw [runsOn_closed fun _ _ => rfl]
      simp
    by_cases hi : isIdentifierStart c = true
    · refine begins_measured [c] (form_identifier hi) (by decide) ?_
      show run _ _ + 1 = u.length + 1 ↔ run _ _ + 1 = u.length + 1 ∧ _
      rw [Nat.add_right_cancel_iff, Nat.add_right_cancel_iff]
      exact run_append isIdentifierPart
    by_cases hd : c.isDigit = true
    · refine begins_measured [c] (form_digit hd) (by decide) ?_
      have happend := numberTail_append u rest
      rw [← endsInExponent_cons (not_exponent_of_digit hd)] at happend
      show numberTail _ + 1 = u.length + 1 ↔ numberTail _ + 1 = u.length + 1 ∧ _
      rw [Nat.add_right_cancel_iff, Nat.add_right_cancel_iff]
      exact happend
    by_cases hdot : c = '.'
    · exact hdot ▸ begins_dot
    by_cases hslash : c = '/'
    · exact hslash ▸ begins_slash hc
    by_cases hquote : c = '"'
    · subst hquote
      exact begins_quoted (by decide) (by decide) form_doubleQuote (fun _ => by simp [fault?])
        fun _ _ => rfl
    by_cases hquote' : c = '\''
    · subst hquote'
      exact begins_quoted (by decide) (by decide) form_quote (fun _ => by simp [fault?])
        fun _ _ => rfl
    have hform := form_punct (by simpa using hs) hn hslash (by simpa using hi) (by simpa using hd)
      hdot hquote hquote'
    cases u with
    | nil =>
      have hfault : ∀ text, fault? .strict (c :: text) = none := fun text => by
        unfold fault?
        split <;> simp_all
      have hruns : runsOn .punct [c] rest = false := by
        cases rest with
        | nil => rfl
        | cons d rest => simp [runsOn, runsInto, hslash, hdot]
      exact begins_single (hform []) (hfault []) (fun _ => ⟨hform rest, hfault rest⟩)
        fun h => absurd (hruns.symm.trans h) Bool.false_ne_true
    | cons d u =>
      have hno : ∀ text, ¬Begins k (c :: d :: u) (c :: text) := fun text =>
        not_begins (hform text) (by simp)
      exact begins_iff_of_not (hno _) (hno _)

theorem whitespace_of_form {text : List Char} (h : (form text).1 = .whitespace) :
    newline text = 0 ∧ (form text).2 = whitespace text := by
  rw [form_eq] at h ⊢
  repeat' split at h
  all_goals simp_all

theorem lineComment_of_form {text : List Char} (h : (form text).1 = .lineComment) :
    lineComment text ≠ 0 ∧ (form text).2 = lineComment text := by
  rw [form_eq] at h ⊢
  repeat' split at h
  all_goals simp_all

theorem forall_of_run {p : Char → Bool} (h : run p u = u.length) : ∀ c ∈ u, p c = true := by
  have htake := (List.takeWhile_prefix p (l := u)).eq_of_length h
  rw [← htake]
  exact List.all_eq_true.1 List.all_takeWhile

/-- White space that begins a text is all blank, and is read from its own text. -/
theorem begins_whitespace {text : List Char} (h : Begins .whitespace u (u ++ text)) :
    (∀ c ∈ u, isSpace c = true) ∧ Begins .whitespace u u := by
  obtain ⟨hne, hform, -⟩ := h
  have hlength := (whitespace_of_form (congrArg Prod.fst hform)).2
  rw [hform] at hlength
  have hrun := ((run_append isSpace).1 hlength.symm).1
  have hspaces := forall_of_run hrun
  refine ⟨hspaces, hne, ?_, by simp⟩
  cases u with
  | nil => exact absurd rfl hne
  | cons c u =>
    have hc := hspaces c List.mem_cons_self
    have hn : newline (c :: u) = 0 := by
      unfold newline
      split
      next he =>
        have := hspaces '\n' (he ▸ List.mem_cons_of_mem _ List.mem_cons_self)
        exact absurd this (by decide)
      next he => exact absurd (hspaces '\n' (he ▸ List.mem_cons_self)) (by decide)
      next => rfl
    have hrun' : run isSpace (c :: u) = run isSpace u + 1 := by
      rw [run, List.takeWhile_cons_of_pos hc]
      rfl
    rw [form_space hc hn, ← hrun', hrun]

/-- A line comment that begins a text has no line feed in it, and is read from its own text. -/
theorem begins_lineComment {text : List Char} (h : Begins .lineComment u (u ++ text)) :
    (∃ v, u = '/' :: '/' :: v ∧ '\n' ∉ v) ∧ Begins .lineComment u u := by
  obtain ⟨hne, hform, -⟩ := h
  obtain ⟨hpos, hlength⟩ := lineComment_of_form (congrArg Prod.fst hform)
  rw [hform] at hlength
  unfold lineComment at hpos hlength
  split at hlength
  next w he =>
    have hlength : u.length = 2 + run (· != '\n') w := hlength
    obtain ⟨v, rfl⟩ : ['/', '/'] <+: u :=
      List.prefix_of_prefix_length_le ⟨w, he.symm⟩ ⟨text, rfl⟩ (by rw [hlength]; simp)
    · obtain rfl : v ++ text = w := by simpa using he
      have hrun : run (· != '\n') (v ++ text) = v.length := by
        simp only [List.length_append, List.length_cons, List.length_nil] at hlength
        omega
      have hrun := ((run_append _).1 hrun).1
      have hmem := forall_of_run hrun
      refine ⟨⟨v, rfl, fun h => ?_⟩, hne, ?_, by simp⟩
      · exact absurd (hmem _ h) (by decide)
      · show form ('/' :: '/' :: v) = _
        rw [form_lineComment, hrun, List.length_append]
        rfl
  next => simp_all

end Form

/-! ## Lexemes -/

/-- Whether a lexeme is read, strictly, from its own text. -/
def IsWhole (l : Lexeme) : Prop := Form.Begins l.kind l.text.toList l.text.toList

/-- A strict reading gives what begins the text. -/
theorem next_iff {c c' : Cursor} {l : Lexeme} : c.next .strict = .ok (some (l, c')) ↔
    Form.Begins l.kind l.text.toList c.rest ∧ l.text.toList <+: c.rest ∧
      c' = c.skip l.text.toList.length := by
  constructor
  · intro h
    have reads := Cursor.reads_of_next h
    have hne : l.text.toList ≠ [] := fun he => reads.nonempty (String.toList_eq_nil_iff.1 he)
    have hrest : c.rest ≠ [] := by
      rw [reads.rest]
      exact List.append_ne_nil_of_left_ne_nil hne _
    rw [Cursor.next, if_neg hrest, reads.form] at h
    dsimp only at h
    split at h
    next => cases h
    next hfault =>
      refine ⟨⟨hne, reads.form, fun hk => ?_⟩, ⟨c'.rest, reads.rest.symm⟩, ?_⟩
      · rwa [if_pos hk] at hfault
      · exact (Prod.mk.inj (Option.some.inj (Except.ok.inj h))).2.symm
  · rintro ⟨⟨hne, hform, hfault⟩, ⟨rest, hprefix⟩, rfl⟩
    have hrest : c.rest ≠ [] := by
      rw [← hprefix]
      exact List.append_ne_nil_of_left_ne_nil hne _
    have hfault : (if l.kind = .punct then fault? .strict c.rest else none) = none := by
      split
      next hk => exact hfault hk
      next => rfl
    have htake : String.ofList (c.rest.take l.text.toList.length) = l.text := by
      rw [← hprefix, List.take_left, String.ofList_toList]
    rw [Cursor.next, if_neg hrest, hform]
    dsimp only
    rw [hfault, htake]

/-- **A lexeme that is read strictly is read from its own text, too.** -/
theorem isWhole_of_next {c c' : Cursor} {l : Lexeme} (h : c.next .strict = .ok (some (l, c'))) :
    l.IsWhole := by
  obtain ⟨hbegins, ⟨rest, hrest⟩, -⟩ := next_iff.1 h
  rw [← hrest] at hbegins
  by_cases hw : l.kind = .whitespace
  · rw [IsWhole, hw]
    rw [hw] at hbegins
    exact (Form.begins_whitespace hbegins).2
  by_cases hc : l.kind = .lineComment
  · rw [IsWhole, hc]
    rw [hc] at hbegins
    exact (Form.begins_lineComment hbegins).2
  · exact ((Form.begins_append hw hc).1 hbegins).1

end ShaderPass.Lexeme
