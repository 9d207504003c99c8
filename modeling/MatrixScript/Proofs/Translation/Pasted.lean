/-
# `Proofs.Translation.Pasted` — arguments of built-ins that hold together

Translating a call leaves the texts of its arguments where its built-in pastes them.  So
whether every operator around an argument takes all of it can be told from the argument:
it depends on the loosest operator in its text (`pasted_of_texts`).  A sum in a
conjunction is too loose for the product around it, and falls apart.
-/
import MatrixScript.Proofs.Rule.Pasted
import MatrixScript.Proofs.Translation.InStep
import MatrixScript.Proofs.Translation.Ratio

namespace MatrixScript

open Cpp (Assembly)
open Cpp.Assembly (whole parens)

namespace Resolving

variable {w w₁ : Workspace} {id : NodeId} {depth : Nat} {found : List String}

/-- Resolving nodes leaves the program. -/
theorem bare_of_texts {ids : List NodeId}
    (run : texts (resolveWithin depth) ids w = (.ok found, w₁)) : w₁.tree.bare = w.tree.bare := by
  have kept := keeps_texts (keeps_resolveWithin depth) ids w
  rwa [run] at kept

theorem category_of_texts
    (children : texts (resolveWithin depth) (w.tree.children id) w = (.ok found, w₁)) :
    ((w₁.seed id).site id found).node.category = w.tree.category id :=
  congrFun (Tree.category_of_bare ((w₁.bare_seed id).trans (bare_of_texts children))) id

theorem lengths_of_texts
    (children : texts (resolveWithin depth) (w.tree.children id) w = (.ok found, w₁)) :
    found.length = ((w₁.seed id).tree.children id).length := by
  rw [length_of_texts children,
    Tree.children_of_bare ((w₁.bare_seed id).trans (bare_of_texts children))]

/-- After its children a node is resolved to what its rule answers. -/
theorem resolveWithin_of_ok (block : w.tree.category id ≠ .block)
    (function : w.tree.category id ≠ .function)
    (children : texts (resolveWithin depth) (w.tree.children id) w = (.ok found, w₁)) {o : Outcome}
    (answer : Rule.select (w₁.seed id).tree ((w₁.seed id).tree.node id) ((w₁.seed id).site id found)
      = .ok o) :
    resolveWithin (depth + 1) id w
      = (.ok (((w₁.seed id).site id found).written o), (w₁.seed id).commit id found o) := by
  have applied : applyRule id found w₁
      = (.ok (((w₁.seed id).site id found).written o), (w₁.seed id).commit id found o) := by
    have answer : (w₁.seed id).answer id found = .ok o := answer
    rw [Workspace.applyRule_eq, answer, ← Workspace.textOf_eq _ (lengths_of_texts children)]
  have run : resolveWithin (depth + 1) id w = node (resolveWithin depth) id w := by
    unfold resolveWithin
    split
    case h_1 here => exact absurd here block
    case h_2 here => exact absurd here function
    case h_3 => rfl
  rw [run, node, children]
  exact applied

theorem resolveWithin_of_answer (block : w.tree.category id ≠ .block)
    (function : w.tree.category id ≠ .function)
    (children : texts (resolveWithin depth) (w.tree.children id) w = (.ok found, w₁)) {o : Outcome}
    (answer : Rule.select (w₁.seed id).tree ((w₁.seed id).tree.node id) ((w₁.seed id).site id found)
      = .ok o) :
    ∃ w', resolveWithin (depth + 1) id w = (.ok (((w₁.seed id).site id found).written o), w') :=
  ⟨_, resolveWithin_of_ok block function children answer⟩

theorem resolveWithin_of_writes (block : w.tree.category id ≠ .block)
    (function : w.tree.category id ≠ .function)
    (children : texts (resolveWithin depth) (w.tree.children id) w = (.ok found, w₁))
    {text : String}
    (writes : Rule.Writes (Rule.select (w₁.seed id).tree ((w₁.seed id).tree.node id))
      ((w₁.seed id).site id found) text) :
    ∃ w', resolveWithin (depth + 1) id w = (.ok text, w') := by
  obtain ⟨o, answer, rfl⟩ := writes
  exact resolveWithin_of_answer block function children answer

/-- A call of `and`, `or`, `not`, `round` or `eye` whose arguments are resolved is resolved to
the text that its built-in pastes them into.  That text, read as C++, applies every operator in
it to all of each argument, and is one operand of what stands around it, exactly if the
arguments are as tight as their places ask for and rounding leaves nothing but a call. -/
theorem arguments_whole_iff {b : Builtin} {e : Assembly} (get : w.tree.category id = .get)
    (children : texts (resolveWithin depth) (w.tree.children id) w = (.ok found, w₁))
    (builtin : Rule.builtinOf? (w₁.seed id).tree ((w₁.seed id).tree.node id) = some b)
    (pasted : Rule.pastedCall? b ((w₁.seed id).site id found) = some e) :
    (∃ w', resolveWithin (depth + 1) id w = (.ok e.spelled, w'))
      ∧ (e.Read ∧ (∃ parts, Cpp.group? e.spelled = some (.operand parts))
        ↔ Rule.ArgumentsTight b ((w₁.seed id).site id found)
          ∧ Rule.StandsAlone b ((w₁.seed id).site id found)) := by
  have get' : ((w₁.seed id).site id found).node.category = .get :=
    (category_of_texts children).trans get
  refine ⟨resolveWithin_of_writes (by rw [get]; nofun) (by rw [get]; nofun) children
    (Rule.writes_pastedCall get' builtin pasted), ?_⟩
  rw [← Rule.fits_pastedCall pasted, ← Assembly.read_iff_fits]
  constructor
  · rintro ⟨read, alone⟩
    have fits := (Assembly.read_iff_fits e).mp read
    exact ⟨read, (Rule.level_pastedCall pasted fits).mp (read.operand_iff.mp alone)⟩
  · rintro ⟨read, alone⟩
    have fits := (Assembly.read_iff_fits e).mp read
    exact ⟨read, read.operand_iff.mpr ((Rule.level_pastedCall pasted fits).mpr alone)⟩

section Instances

/-- A product holds together in a conjunction. -/
theorem arguments_whole_product : ∃ t w₁, Tree.parse "y = and(a*b, c)\n" = .ok t
    ∧ t.category 1 = .get
    ∧ texts (resolveWithin 3) (t.children 1) ⟨t, .ofConfig threeFloats⟩ = (.ok ["a*b", "c"], w₁)
    ∧ Rule.builtinOf? (w₁.seed 1).tree ((w₁.seed 1).tree.node 1) = some .land
    ∧ ∃ e, Rule.pastedCall? .land ((w₁.seed 1).site 1 ["a*b", "c"]) = some e
      ∧ (∃ w', resolveWithin 4 1 ⟨t, .ofConfig threeFloats⟩ = (.ok e.spelled, w'))
      ∧ e.Read ∧ ∃ parts, Cpp.group? e.spelled = some (.operand parts) := by
  have visits : ∃ t w₁, Tree.parse "y = and(a*b, c)\n" = .ok t ∧ t.category 1 = .get
      ∧ texts (resolveWithin 3) (t.children 1) ⟨t, .ofConfig threeFloats⟩ = (.ok ["a*b", "c"], w₁)
      ∧ Rule.builtinOf? (w₁.seed 1).tree ((w₁.seed 1).tree.node 1) = some .land
      ∧ Rule.pastedCall? .land ((w₁.seed 1).site 1 ["a*b", "c"])
        = some (parens (.chain .mul (whole "a*b") [whole "c"])) :=
    ⟨_, _, by cbv, by decide, Prod.ext (by decide +kernel) rfl, by decide +kernel, rfl⟩
  obtain ⟨t, w₁, parses, get, children, builtin, pasted⟩ := visits
  have fits : (parens (.chain .mul (whole "a*b") [whole "c"])).Fits := by decide
  obtain ⟨resolved, read⟩ :=
    arguments_whole_iff (w := ⟨t, .ofConfig threeFloats⟩) get children builtin pasted
  exact ⟨t, w₁, parses, get, children, builtin, _, pasted, resolved,
    read.mpr ⟨(Rule.fits_pastedCall pasted).mp fits, (Rule.level_pastedCall pasted fits).mp rfl⟩⟩

/-- A sum does not: of `and(a + b, c)` the product takes `b` alone. -/
theorem arguments_whole_sum : ∃ t w₁, Tree.parse "y = and(a + b, c)\n" = .ok t
    ∧ t.category 1 = .get
    ∧ texts (resolveWithin 3) (t.children 1) ⟨t, .ofConfig threeFloats⟩ = (.ok ["a+b", "c"], w₁)
    ∧ Rule.builtinOf? (w₁.seed 1).tree ((w₁.seed 1).tree.node 1) = some .land
    ∧ ∃ e, Rule.pastedCall? .land ((w₁.seed 1).site 1 ["a+b", "c"]) = some e
      ∧ (translateWith "y = and(a + b, c)\n" threeFloats).toOption.map (·.statements)
        = some ["y = " ++ e.spelled ++ " ;"]
      ∧ Cpp.group? "a+b*c" = some (.binary .add (.operand ["a"])
        (.binary .mul (.operand ["b"]) (.operand ["c"])))
      ∧ e.spelled = "(a+b*c)" ∧ ¬e.Read :=
  ⟨_, _, by cbv, by decide, Prod.ext (by decide +kernel) rfl, by decide +kernel,
    parens (.chain .mul (whole "a+b") [whole "c"]), rfl, by decide +kernel, by decide, by decide,
    by decide⟩

end Instances

end Resolving

end MatrixScript
