/-
# `Proofs.Translation.Later` — what follows a program does not change what it gives

A program that ends with its line, and whose functions are all closed, is followed by
another one.  The two texts are read as the statements of the one and then those of the
other (`Program.parse_append`), and whatever the first program gives stands at the
beginning of what both give, under every configuration (`translateWith_append`): its
lines, its diagnostics with the numbers of their nodes, its helpers, its suggestions and
its clock.

The nodes of the first program keep their numbers (`Tree.embeds_append`), so its
statements are translated as they are alone (`Resolving.same_blockLines`); what comes
after them takes nothing back (`Resolving.adds_blockLines`).
-/
import MatrixScript.Proofs.Program.Append
import MatrixScript.Proofs.Program.Position
import MatrixScript.Proofs.Translation.Same
import MatrixScript.Proofs.Tree.Raw

namespace MatrixScript

/-! ## Reading -/

/-- Behind a closed program that ends with its line another one is read as it is alone. -/
theorem Program.parse_append {p q : String} {ts : List Spanned} {a b : Program}
    (lexed : Token.tokenize p = .ok ts) (ends : Token.EndsLine p ts) (closed : Program.Closed ts)
    (parsed : Program.parse p = .ok a) (parsed' : Program.parse q = .ok b) :
    Program.parse (p ++ q) = .ok (a ++ b) := by
  rw [Program.parse, lexed] at parsed
  cases lexed' : Token.tokenize q with
  | error e =>
    rw [Program.parse, lexed'] at parsed'
    cases parsed'
  | ok us =>
    rw [Program.parse, lexed'] at parsed'
    have shifted := Program.ofTokens_alike (Spanned.map_look_shift (Text.occupied p.toList) us) parsed'
    rw [Program.parse, Token.tokenize_append lexed ends lexed']
    exact Program.ofTokens_append ends.start closed parsed shifted

/-! ## Translating -/

/-- What a translation gives stands at the beginning of what another one gives. -/
structure Translation.Begins (u v : Translation) : Prop where
  statements : u.statements <+: v.statements
  diagnostics : u.diagnostics <+: v.diagnostics
  includes : u.includes ⊆ v.includes
  suggested : ∀ x, u.suggestions.contains x → v.suggestions.contains x
  usesTimer : u.usesTimer → v.usesTimer

theorem Translation.begins_ofState {s s' : State} (h : s.Extends s') (lines more : List String) :
    (ofState lines s).Begins (ofState (lines ++ more) s') where
  statements := List.prefix_append lines more
  diagnostics := h.diagnostics
  includes := fun _ mem => Include.mem_listed.mpr (h.includes (Include.mem_listed.mp mem))
  suggested := h.suggested
  usesTimer := h.used

/-- The lines of a program come first, and what follows only adds to what is remembered. -/
theorem Resolving.rootLines_append {a b : Program} (h : Program.Accepted (a ++ b)) (s : State) :
    ∃ more, (rootLines ⟨Tree.ofProgram (a ++ b), s⟩).1
        = (rootLines ⟨Tree.ofProgram a, s⟩).1 ++ more
      ∧ (rootLines ⟨Tree.ofProgram a, s⟩).2.state.Extends
        (rootLines ⟨Tree.ofProgram (a ++ b), s⟩).2.state := by
  have first : a.Accepted := fun i mem => h i (List.mem_append_left b mem)
  have piece := Tree.embeds_append h
  have top := Tree.root_ofProgram a
  have top' := Tree.root_ofProgram (a ++ b)
  have wf := Tree.wellFormed_ofProgram first
  have wf' := Tree.wellFormed_ofProgram h
  have raw := Tree.raw_ofProgram first
  have children := Tree.children_root first
  have children' := Tree.children_root h
  have inside : ∀ c ∈ Tree.tops a, Tree.Front a c c := fun c mem =>
    ⟨rfl, (Tree.forest_forest first).root c mem⟩
  rw [Tree.tops_append] at children'
  generalize Tree.ofProgram a = t at piece top wf raw children
  generalize Tree.ofProgram (a ++ b) = t' at piece top' wf' children'
  have start : Workspace.Same (Tree.Front a) t t' ⟨t, s⟩ ⟨t', s⟩ :=
    ⟨⟨rfl, rfl, piece.toTwins, rfl, rfl⟩, piece.rendered, rfl⟩
  have each : ∀ c ∈ Tree.tops a, Same (Tree.Front a) t t' (resolveWithin (t.size + 1) c)
      (resolveWithin (t'.size + 1) c) := by
    intro c mem
    refine same_resolveWithin piece wf wf' _ _ (inside c mem) (enough_of_root wf top ?_)
      (enough_of_root wf' top' ?_)
    · rwa [children]
    · rw [children']
      exact List.mem_append_left _ mem
  have steady : ∀ c ∈ Tree.tops a, Steady t c (resolveWithin (t.size + 1) c) := fun c mem =>
    steady_resolveWithin wf _ (wf.bound _ c (by rwa [children]))
  obtain ⟨same, after⟩ := same_blockLines piece inside each steady start raw.lawful
  rw [rootLines_eq wf top (w := ⟨t, s⟩) rfl, rootLines_eq wf' top' (w := ⟨t', s⟩) rfl, children,
    children', blockLines_append, same, ← after.state]
  exact ⟨_, rfl, adds_blockLines (adds_resolveWithin _) _ _⟩

/-- What a closed program gives under a configuration, if that is valid, does not change
with what follows its last line. -/
theorem translateWith_append {p q : String} {ts : List Spanned} {a b : Program}
    (lexed : Token.tokenize p = .ok ts) (ends : Token.EndsLine p ts) (closed : Program.Closed ts)
    (parsed : Program.parse p = .ok a) (parsed' : Program.parse q = .ok b) :
    Program.parse (p ++ q) = .ok (a ++ b) ∧ ∀ config : Config,
      (∃ e, config.validate = .error e ∧ translateWith p config = .error e
        ∧ translateWith (p ++ q) config = .error e)
      ∨ ∃ u v, translateWith p config = .ok u ∧ translateWith (p ++ q) config = .ok v
        ∧ u.Begins v := by
  have whole := Program.parse_append lexed ends closed parsed parsed'
  refine ⟨whole, fun config => ?_⟩
  unfold translateWith Tree.parse Translator.withConfig
  rw [parsed, whole]
  dsimp only
  cases config.validate with
  | error e => exact .inl ⟨e, rfl, rfl, rfl⟩
  | ok config =>
    obtain ⟨more, lines, grows⟩ := Resolving.rootLines_append (Program.accepted_of_parse whole)
      (.ofConfig config)
    refine .inr ⟨_, _, rfl, rfl, ?_⟩
    unfold Translator.translate
    dsimp only
    rw [lines]
    exact Translation.begins_ofState grows _ more

/-- A function and a clock that is not started, in front of a statement that fails. -/
theorem translateWith_append_toc : ∃ ts a b,
    Token.tokenize "function y = f(x)\ny = x\nend\nt = f(1) + toc\n" = .ok ts
      ∧ Token.EndsLine "function y = f(x)\ny = x\nend\nt = f(1) + toc\n" ts ∧ Program.Closed ts
      ∧ Program.parse "function y = f(x)\ny = x\nend\nt = f(1) + toc\n" = .ok a
      ∧ Program.parse "pi = t" = .ok b
      ∧ ∃ u v, translateWith "function y = f(x)\ny = x\nend\nt = f(1) + toc\n" {} = .ok u
        ∧ translateWith ("function y = f(x)\ny = x\nend\nt = f(1) + toc\n" ++ "pi = t") {} = .ok v
        ∧ u.Begins v ∧ u.diagnostics.length = 1 ∧ u.usesTimer := by
  have reads : ∃ ts a b,
      Token.tokenize "function y = f(x)\ny = x\nend\nt = f(1) + toc\n" = .ok ts
      ∧ Token.EndsLine "function y = f(x)\ny = x\nend\nt = f(1) + toc\n" ts ∧ Program.Closed ts
      ∧ Program.parse "function y = f(x)\ny = x\nend\nt = f(1) + toc\n" = .ok a
      ∧ Program.parse "pi = t" = .ok b
      ∧ (Translator.new.translate (.ofProgram a)).1.diagnostics.length = 1
      ∧ (Translator.new.translate (.ofProgram a)).1.usesTimer :=
    ⟨_, _, _, by cbv, ⟨_, rfl, rfl, rfl⟩, ⟨_, _, by cbv⟩, by cbv, by cbv, by decide +kernel,
      by decide +kernel⟩
  obtain ⟨ts, a, b, lexed, ends, closed, parsed, parsed', one, timer⟩ := reads
  refine ⟨ts, a, b, lexed, ends, closed, parsed, parsed', ?_⟩
  have given : translateWith "function y = f(x)\ny = x\nend\nt = f(1) + toc\n" {}
      = .ok (Translator.new.translate (.ofProgram a)).1 := by
    rw [translateWith, Tree.parse, parsed]
    rfl
  rcases (translateWith_append lexed ends closed parsed parsed').2 {} with
    ⟨e, invalid, -⟩ | ⟨u, v, run, run', begins⟩
  · cases invalid
  · obtain rfl := Except.ok.inj (run.symm.trans given)
    exact ⟨_, v, run, run', begins, one, timer⟩

end MatrixScript
