/-
# `Proofs.Translation.Function` — what a function definition is translated to

A function that does not fail in its parameters and outputs has a text, whatever happens
in its body: the lines of the body stand between a first line and a brace and what ends
the function (`Resolving.exists_functionRun`).  Its own rule changes nothing that is
remembered, so all that a definition leaves behind it leaves in its body.
-/
import MatrixScript.Proofs.Translation.Leads
import MatrixScript.Proofs.Translation.Trace

namespace MatrixScript.Resolving

open Workspace

theorem body?_of_function {t : Tree} {resolve : NodeId → Resolving String} {id : NodeId}
    {w : Workspace} (same : w.tree.bare = t.bare) (function : t.category id = .function) {p r b : NodeId}
    (children : t.children id = [p, r, b]) : body? resolve id w
      = match texts resolve [p, r] { w with state := (w.state.withPending []).pushScope } with
        | (.ok _, start) => some (start, t.children b)
        | (.error _, _) => none := by
  have category : (w.tree.node id).category = .function :=
    (congrFun (Tree.category_of_bare same) id).trans function
  rewrite [body?, category, Tree.children_of_bare same, children]
  rfl

variable {t : Tree} (wf : t.WellFormed) {L : Likeness} (spelt : t.Spelt L) {id : NodeId}
  (lt : id < t.size) (function : t.category id = .function) {p r b : NodeId}
  (children : t.children id = [p, r, b]) (params : t.category p = .params)
  (returns : t.category r = .returns) {w : Workspace}
include wf spelt lt function children params returns

/-- The text of a function; nothing is remembered of its rule. -/
theorem exists_functionText (same : w.tree.bare = t.bare) (x y z : String) : ∃ head back after,
    applyRule id [x, y, z] w
        = (.ok (Text.joined "\n" (head :: "\x7b" :: (Text.lines z ++ back) ++ ["\x7d"])), after)
      ∧ after.state = w.state ∧ L.line head head ∧ ∀ l ∈ back, L.line l l := by
  have seeded : (w.seed id).tree.bare = t.bare :=
    (leads_seed (P := fun _ => True) w id).bare.trans same
  have category : ∀ i, ((w.seed id).tree.node i).category = t.category i :=
    congrFun (Tree.category_of_bare seeded)
  have ids : (w.seed id).tree.children id = [p, r, b] := by
    rw [Tree.children_of_bare seeded, children]
  have operands : ((w.seed id).site id [x, y, z]).operands = [⟨p, (w.seed id).tree.node p, x⟩,
      ⟨r, (w.seed id).tree.node r, y⟩, ⟨b, (w.seed id).tree.node b, z⟩] := by
    show (((w.seed id).tree.children id).zip _).map _ = _
    rw [ids]
    rfl
  have akin : ((w.seed id).site id [x, y, z]).Akin L ((w.seed id).site id [x, y, z]) :=
    akin_site rfl (wf.of_bare seeded) (spelt.of_bare seeded)
      (by rwa [Tree.size_of_bare seeded]) (by rw [ids]; rfl) rfl fun _ => rfl
  have named : ((w.seed id).site id [x, y, z]).node.category.isNamed := by
    show ((w.seed id).tree.node id).category.isNamed
    rw [category, function]
    rfl
  obtain ⟨o, head, back, ok, effects, written, line, lines⟩ := Rule.function_written akin named
    operands ((category p).trans params) ((category r).trans returns)
  refine ⟨head, back, (w.seed id).commit id [x, y, z] o, ?_, ?_, line, lines⟩
  · have select : Rule.select (w.seed id).tree ((w.seed id).tree.node id) = Rule.function :=
      Rule.select_function ((category id).trans function)
    unfold applyRule
    dsimp only
    rw [select, ok]
    dsimp only
    rw [textOf_eq _ (by rw [ids]; rfl), written]
  · show (o.effects.foldl (perform id) (w.seed id)).state = _
    rw [effects]
    rfl

/-- A whole function: the lines of its body with its own around them. -/
theorem exists_functionRun {depth : Nat} (body : t.category b = .block) (same : w.tree.bare = t.bare)
    {found : List String} {start : Workspace}
    (heads : texts (resolveWithin (depth + 1)) [p, r]
      { w with state := (w.state.withPending []).pushScope } = (.ok found, start))
    (same' : start.tree.bare = t.bare) (lawful : start.tree.Lawful) : ∃ head back after,
    resolveWithin (depth + 2) id { w with state := w.state.withPending [] }
        = (.ok (Text.joined "\n" (head :: "\x7b" :: (Text.lines (Text.joined "\n"
            (blockLines (resolveWithin depth) (t.children b) start).1) ++ back) ++ ["\x7d"])), after)
      ∧ after.state = (blockLines (resolveWithin depth) (t.children b) start).2.state.popScope
      ∧ L.line head head ∧ ∀ l ∈ back, L.line l l := by
  obtain ⟨x, y, rfl⟩ : ∃ x y, found = [x, y] := List.length_eq_two.mp (length_of_texts heads)
  have steady : ∀ c ∈ t.children b, Steady t c (resolveWithin depth c) := fun c mem =>
    steady_resolveWithin wf depth (wf.bound b c mem)
  have walk := leads_blockLines steady same' lawful
  have block : resolveWithin (depth + 1) b start
      = (.ok (Text.joined "\n" (blockLines (resolveWithin depth) (t.children b) start).1),
        (blockLines (resolveWithin depth) (t.children b) start).2) := by
    rw [resolveWithin_block same' depth body]
    unfold Resolving.block
    rw [Tree.children_of_bare same']
  generalize blockLines (resolveWithin depth) (t.children b) start = result at walk block ⊢
  obtain ⟨lines, inside⟩ := result
  obtain ⟨head, back, after, text, state, line, others⟩ := exists_functionText wf spelt lt function
    children params returns (walk.bare.trans same') x y (Text.joined "\n" lines)
  have all : texts (resolveWithin (depth + 1)) [p, r, b]
      { w with state := (w.state.withPending []).pushScope }
        = (.ok [x, y, Text.joined "\n" lines], inside) := by
    rw [show [p, r, b] = [p, r] ++ [b] from rfl, texts_append, heads]
    dsimp only
    rw [texts_of_ok block]
    rfl
  have ids : w.tree.children id = [p, r, b] := by
    rw [Tree.children_of_bare same, children]
  refine ⟨head, back, { after with state := after.state.popScope }, ?_, congrArg State.popScope state,
    line, others⟩
  rw [resolveWithin_function (w := { w with state := w.state.withPending [] }) same (depth + 1) function]
  unfold inScope node
  dsimp only
  rw [ids, all]
  dsimp only
  rw [text]

end MatrixScript.Resolving
