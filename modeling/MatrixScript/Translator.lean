/-
# `Translator` — translating a tree

A node is resolved after its children: it is seeded, its rule is asked, and
the outcome is committed.  A statement of a block contributes its lines,
with the definitions that it hoisted in front; if it fails, it contributes
one comment, and translation goes on with the next.  The depth of a tree
bounds the recursion, and the number of nodes bounds the depth.
-/
import MatrixScript.Rule.Table
import MatrixScript.Translation
import MatrixScript.Tree.OfProgram
import MatrixScript.Workspace

namespace MatrixScript

/-- A step of translation: it may fail, and what it has changed stays. -/
abbrev Resolving (α : Type) := Workspace → Except Error α × Workspace

namespace Resolving

/-- Resolves nodes from left to right, up to the first error. -/
def texts (resolve : NodeId → Resolving String) : List NodeId → Resolving (List String)
  | [], w => (.ok [], w)
  | id :: ids, w =>
      match resolve id w with
      | (.error e, w) => (.error e, w)
      | (.ok text, w) =>
          match texts resolve ids w with
          | (.error e, w) => (.error e, w)
          | (.ok rest, w) => (.ok (text :: rest), w)

/-- Applies the rule of a node whose children have the given texts. -/
def applyRule (id : NodeId) (texts : List String) : Resolving String := fun w =>
  let w := w.seed id
  match Rule.select w.tree (w.tree.node id) (w.site id texts) with
  | .error e => (.error e, w)
  | .ok outcome => (.ok (w.textOf id texts outcome), w.commit id texts outcome)

/-- Resolves a node after its children. -/
def node (resolve : NodeId → Resolving String) (id : NodeId) : Resolving String := fun w =>
  match texts resolve (w.tree.children id) w with
  | (.error e, w) => (.error e, w)
  | (.ok texts, w) => applyRule id texts w

/-! ## Statements -/

/-- The line of a statement that fails. -/
def failureLine (e : Error) : String := "// error: " ++ e.message

/-- Lines of a statement, with the definitions that it hoists in front. -/
def statementLines (resolve : NodeId → Resolving String) (id : NodeId) (w : Workspace) :
    List String × Workspace :=
  let outer := w.state.pending
  let (result, after) := resolve id { w with state := w.state.withPending [] }
  let hoisted := after.state.pending
  let state := after.state.withPending outer
  match result with
  | .ok text => (hoisted ++ Text.lines text, { after with state })
  | .error e =>
      ([failureLine e], { after with state := state.report after.tree id e.problem e.message })

/-- Lines of several statements. -/
def blockLines (resolve : NodeId → Resolving String) :
    List NodeId → Workspace → List String × Workspace
  | [], w => ([], w)
  | id :: ids, w =>
      let (lines, w) := statementLines resolve id w
      let (rest, w) := blockLines resolve ids w
      (lines ++ rest, w)

/-! ## Nodes -/

/-- Resolves a node in a scope of its own. -/
def inScope (step : Resolving String) : Resolving String := fun w =>
  let (result, after) := step { w with state := w.state.pushScope }
  (result, { after with state := after.state.popScope })

/-- Resolves a block to its lines. -/
def block (resolve : NodeId → Resolving String) (id : NodeId) : Resolving String := fun w =>
  let (lines, w) := blockLines resolve (w.tree.children id) w
  (.ok (Text.joined "\n" lines), w)

/-- Resolves a node less than `depth` levels above its deepest descendant. -/
def resolveWithin : Nat → NodeId → Resolving String
  | 0, _, w => (.error .malformedTree, w)
  | depth + 1, id, w =>
      match (w.tree.node id).category with
      | .block => block (resolveWithin depth) id w
      | .function => inScope (node (resolveWithin depth) id) w
      | _ => node (resolveWithin depth) id w

/-- Resolves a node and everything below it. -/
def resolve (id : NodeId) : Resolving String := fun w => resolveWithin (w.tree.size + 1) id w

/-- Lines of the root of a tree. -/
def rootLines (w : Workspace) : List String × Workspace :=
  match w.tree.root with
  | none => ([], w)
  | some root =>
      let below := resolveWithin (w.tree.size + 1)
      match (w.tree.node root).category with
      | .block => blockLines below (w.tree.children root) w
      | _ => statementLines below root w

end Resolving

/-! ## Whole programs -/

/-- Translates trees under a configuration. -/
structure Translator where
  state : State
deriving Repr, Inhabited

namespace Translator

/-- A translator without declarations. -/
def new : Translator := ⟨.ofConfig {}⟩

/-- A translator of a valid configuration. -/
def withConfig (config : Config) : Except Error Translator :=
  match config.validate with
  | .ok config => .ok ⟨.ofConfig config⟩
  | .error e => .error e

/-- Declares the type of a variable. -/
def declare (t : Translator) (name typeName : String) : Except Error Translator :=
  match t.state.config.declare name typeName with
  | .ok config => .ok { t with state := { t.state with config } }
  | .error e => .error e

/-- Resolves one node and keeps what is remembered. -/
def resolve (t : Translator) (tree : Tree) (id : NodeId) :
    Except Error String × Tree × Translator :=
  let (result, w) := Resolving.resolve id ⟨tree, t.state⟩
  (result, w.tree, ⟨w.state⟩)

/-- Translates a tree; the configuration is all that is remembered afterwards. -/
def translate (t : Translator) (tree : Tree) : Translation × Tree × Translator :=
  let (lines, w) := Resolving.rootLines ⟨tree, t.state⟩
  (.ofState lines w.state, w.tree, ⟨.ofConfig w.state.config⟩)

end Translator

/-- Translates a source text under a configuration; the source is read first. -/
def translateWith (source : String) (config : Config) : Except Error Translation :=
  match Tree.parse source with
  | .error e => .error e
  | .ok tree =>
      match Translator.withConfig config with
      | .error e => .error e
      | .ok t => .ok (t.translate tree).1

/-- Translates a source text with declared types, which are checked first. -/
def translateDeclaring (source : String) (declarations : List (String × String)) :
    Except Error Translation :=
  match ({} : Config).declareAll declarations with
  | .error e => .error e
  | .ok config => translateWith source config

/-- Translates a source text without declarations. -/
def translate (source : String) : Except Error Translation := translateWith source {}

end MatrixScript
