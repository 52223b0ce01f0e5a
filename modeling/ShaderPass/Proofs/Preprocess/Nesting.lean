import Mathlib
import ShaderPass.Proofs.Preprocess.Reach
import ShaderPass.Proofs.Preprocess.Step

/-!
# Proofs/Preprocess/Nesting — texts spliced into texts, and how deep that can go

    shader ──▸ a ──▸ b        the chain: no name twice, and all but the first name a text
                     b asks for a:  circular include: shader -> a -> b -> a

A text is spliced in only if it is in the library and its path is not on the chain.  So no state of a
run has a path on its chain twice, and the chain is never longer than the library has paths, and one
more (`Library.Links.length_le`).  A path that is on the chain already is a failure that shows the
chain.  Whatever the texts ask for, a run is finite (`Session.splicing_ends`).
-/

namespace ShaderPass.Preprocess

variable {env : Settings} {l : Library} {f : Frame} {s s' s₁ : State} {o : Outcome} {x y root : Point}

/-! ## Chains -/

/-- The paths of the texts of a library, each once. -/
def Library.paths (l : Library) : List String := (l.entries.map (·.1)).dedup

theorem Library.mem_paths {path : String} (h : l.contains path = true) : path ∈ l.paths := by
  rw [Library.paths, List.mem_dedup]
  by_contra hnot
  have hnone : l.entries.lookup path = none := List.lookup_eq_none_iff.2 fun e he =>
    bne_iff_ne.2 fun hp => hnot (List.mem_map.2 ⟨e, he, hp.symm⟩)
  rw [contains, text?, hnone] at h
  cases h

/-- The names of a chain, innermost first, are all different, and all but the outermost are paths of
texts. -/
structure Library.Links (l : Library) (chain : List String) : Prop where
  nodup : chain.Nodup
  contains : ∀ path ∈ chain.dropLast, l.contains path = true

namespace Library.Links

variable {chain : List String} {path : String}

theorem singleton (l : Library) (name : String) : l.Links [name] :=
  ⟨List.nodup_singleton name, fun _ h => absurd h List.not_mem_nil⟩

theorem cons (h : l.Links chain) (hpath : l.contains path = true) (hnew : path ∉ chain) :
    l.Links (path :: chain) := by
  refine ⟨List.nodup_cons.2 ⟨hnew, h.nodup⟩, fun p hp => ?_⟩
  cases chain with
  | nil => exact absurd hp List.not_mem_nil
  | cons c cs =>
    rcases List.mem_cons.1 hp with rfl | hp
    · exact hpath
    · exact h.contains p hp

theorem tail (h : l.Links chain) : l.Links chain.tail := by
  refine ⟨h.nodup.sublist (List.tail_sublist chain), fun p hp => h.contains p ?_⟩
  rw [← List.tail_dropLast] at hp
  exact List.mem_of_mem_tail hp

/-- **A chain is at most as long as the library has paths, and one more.** -/
theorem length_le (h : l.Links chain) : chain.length ≤ l.paths.length + 1 := by
  have nodup : chain.dropLast.Nodup := h.nodup.sublist (List.dropLast_sublist chain)
  have subset : chain.dropLast ⊆ l.paths := fun p hp => mem_paths (h.contains p hp)
  have := (List.subperm_of_subset nodup subset).length_le
  rw [List.length_dropLast] at this
  omega

end Library.Links

/-- A step keeps the chain, or leaves the unit. -/
theorem chain_of_step (h : step env f s = (o, s')) :
    s'.chain = s.chain ∨ s'.chain = s.chain.tail := by
  cases o with
  | next => exact .inl (step_next h).2.chain
  | splice => exact .inl (step_splice h).2.1.chain
  | finished => exact .inr (step_finished h).2
  | failed =>
    refine .inl ?_
    cases step_cases h with
    | failed => rfl
    | failedAfter flush => exact (samePlace_flush flush).chain
    | unterminated flush => exact (samePlace_flush flush).chain

theorem links_proceeds (h : Proceeds env x y) (hx : env.library.Links x.state.chain) :
    env.library.Links y.state.chain := by
  cases h with
  | next step => exact (step_next step).2.chain ▸ hx
  | enter step =>
    obtain ⟨-, same, fresh⟩ := step_splice step
    exact (same.chain ▸ hx).cons fresh.contains fresh.offChain
  | resume step run => exact (same_of_advances (.splice step run)).2.2 ▸ hx

/-- The chain of every state that a run passes is one of a library. -/
theorem links_passes (hroot : env.library.Links root.state.chain) (h : Passes env root s) :
    env.library.Links s.chain := by
  have reached : ∀ {x}, Reached env root x → env.library.Links x.state.chain := fun hx =>
    hx.induct hroot fun _ _ hx hxy => links_proceeds hxy hx
  cases h with
  | before hx => exact reached hx
  | after hx step =>
    rcases chain_of_step step with hchain | hchain
    · exact hchain ▸ reached hx
    · exact hchain ▸ (reached hx).tail

/-! ## A path on the chain -/

/-- **The step over a directive that asks for a text, if the path resolves.**  It fails where the
text is being read, passes over a text that is marked, and otherwise splices the text in. -/
theorem step_of_resolves {line : Directive.Line} {after : Lexeme.Cursor} {path resolved : String}
    {rest : List Char} (reads : AtDirective f s s₁ line after) (active : s.isActive = true)
    (parses : Directive.parse? line.text = some (.splice path, rest))
    (resolves : env.library.resolve? f.directory env.basePath path = some resolved) :
    step env f s =
      if resolved ∈ s.chain then
        (.failed ⟨.circular (s.chain.reverse ++ [resolved]), s₁.position f.origin⟩, s₁)
      else if resolved ∈ s.marked then
        (.next (f.afterLine after),
          (s₁.note ⟨.notSplicedAgain resolved, s₁.position f.origin⟩).emitLineEnds f.unit
            line.lineEnds)
      else
        (.splice ⟨resolved, (env.library.text? resolved).getD ""⟩ line.lineEnds
          (f.afterLine after), s₁) := by
  have active₁ := (isActive_flush reads.flush).trans active
  have marked : s₁.marked = s.marked := by rw [flush_eq reads.flush]
  rw [step_of_atDirective reads, handle_of_parse? active₁ parses, obey, spliceIn, resolves,
    ← (samePlace_flush reads.flush).chain, ← marked, ← List.reverse_cons]
  by_cases hchain : resolved ∈ s₁.chain
  · simp only [if_pos hchain]
  · by_cases hmarked : resolved ∈ s₁.marked
    · simp only [if_neg hchain, if_pos hmarked]
    · simp only [if_neg hchain, if_neg hmarked]

/-! ## The run of a source -/

namespace Session

/-- The run of a source that fails at a point it reaches is refused for that. -/
theorem tryProcess_of_reached {p : Session} {source : String} {e : Error}
    (h : Reached p.settings (p.entry source) x) (step : x.step p.settings = (.failed e, s)) :
    (p.tryProcess source).1 = .error e := by
  have run : p.runSource source = (p.entry source).run p.settings := rfl
  rw [tryProcess, run, run_of_reached h (run_of_failed step)]

/-- **Splicing ends, whatever texts ask for which.**  A source is run to its end or to a failure, and
no sequence of steps is endless.  In every state of the run the names on the chain are all different
and all but the outermost are paths of texts, so that the chain is at most as long as the library has
paths, and one more.  A directive that asks for a text by a path that resolves fails if and only if
that text is on the chain, and then the source is refused with the chain, outermost first, and the
path that would be on it twice. -/
theorem splicing_ends (p : Session) (source : String) :
    ((∃ t, Runs p.settings (p.entry source) t ∧ (p.tryProcess source).1 = .ok t.output) ∨
      ∃ e t, Fails p.settings (p.entry source) e t ∧ (p.tryProcess source).1 = .error e) ∧
    (WellFounded fun y x => Proceeds p.settings x y) ∧
    (∀ s, Passes p.settings (p.entry source) s →
      p.library.Links s.chain ∧ s.chain.length ≤ p.library.paths.length + 1) ∧
    ∀ x, Reached p.settings (p.entry source) x → x.state.isActive = true →
      ∀ s line after path rest resolved, AtDirective x.frame x.state s line after →
        Directive.parse? line.text = some (.splice path, rest) →
        p.library.resolve? x.frame.directory p.basePath path = some resolved →
        ((∃ e s', x.step p.settings = (.failed e, s')) ↔ resolved ∈ x.state.chain) ∧
        (resolved ∈ x.state.chain → ∃ e, (p.tryProcess source).1 = .error e ∧
          e.diagnostic = .source .directive
            ("circular include: " ++
              String.intercalate " -> " (x.state.chain.reverse ++ [resolved]))
            (s.position x.frame.origin)) := by
  have run : p.runSource source = (p.entry source).run p.settings := rfl
  refine ⟨?_, wellFounded_proceeds _, fun s hs => ?_, ?_⟩
  · rcases runs_or_fails p.settings (p.entry source) with ⟨t, runs⟩ | ⟨e, t, fails⟩
    · exact .inl ⟨t, runs, by rw [tryProcess, run, run_of_runs runs]⟩
    · exact .inr ⟨e, t, fails, by rw [tryProcess, run, run_of_fails fails]⟩
  · have links := links_passes (.singleton p.library p.rootUnit) hs
    exact ⟨links, links.length_le⟩
  · intro x reached active s line after path rest resolved reads parses resolves
    have step : x.step p.settings = _ := step_of_resolves reads active parses resolves
    refine ⟨⟨?_, fun hmem => ⟨_, _, step.trans (if_pos hmem)⟩⟩, fun hmem => ?_⟩
    · rintro ⟨e, s', fails⟩
      by_contra hmem
      rw [step, if_neg hmem] at fails
      split at fails
      next => cases fails
      next => cases fails
    · exact ⟨_, tryProcess_of_reached reached (step.trans (if_pos hmem)), rfl⟩

/-- A text that splices itself in. -/
theorem splicing_ends_apply :
    ∃ e, ((Session.new.reset [("a", "#include \"a\"")] "").tryProcess "#include \"a\"").1 =
        .error e ∧
      e.diagnostic = .source .directive "circular include: shader -> a -> a" ⟨"a", 1, 1⟩ := by
  let p := Session.new.reset [("a", "#include \"a\"")] ""
  let root := p.entry "#include \"a\""
  let x := root.state.entry ⟨"a", "#include \"a\""⟩
  have step : root.step p.settings = (.splice ⟨"a", "#include \"a\""⟩ [] ⟨0, "shader", "", 0,
      ⟨[], ⟨12, 1, 13⟩⟩, [], true⟩, root.state) := by cbv
  have reached : Reached p.settings root x := reached_iff.2 (.single (.enter step))
  have active : x.state.isActive = true := by cbv
  have reads : AtDirective x.frame x.state x.state ⟨"#include \"a\"", []⟩ ⟨[], ⟨12, 1, 13⟩⟩ :=
    ⟨rfl, ⟨⟨.punct, "#"⟩, ⟨"include \"a\"".toList, ⟨1, 1, 2⟩⟩, by cbv, by cbv, by cbv⟩, by cbv⟩
  have parses : Directive.parse? "#include \"a\"" = some (.splice "a", []) := by cbv
  have resolves : p.library.resolve? x.frame.directory p.basePath "a" = some "a" := by cbv
  have message : "circular include: " ++ String.intercalate " -> " (x.state.chain.reverse ++ ["a"]) =
      "circular include: shader -> a -> a" := by cbv
  have position : x.state.position x.frame.origin = ⟨"a", 1, 1⟩ := by cbv
  have refused := ((splicing_ends p "#include \"a\"").2.2.2 x reached active _ _ _ "a" [] "a" reads
    parses resolves).2 (by decide)
  rwa [message, position] at refused

end Session

end ShaderPass.Preprocess
