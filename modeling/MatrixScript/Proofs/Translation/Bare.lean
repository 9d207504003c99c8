/-
# `Proofs.Translation.Bare` — translation leaves the program alone

Translation fills in the slots of nodes and changes nothing else.  `bare`
takes the slots off: the bare tree is what the parser gave, and every step of
a translation leaves it (`bare_resolveWithin`, `bare_translate`).  What only
depends on links, categories, names and values, such as being well formed,
therefore holds before a translation exactly if it holds after it.
-/
import MatrixScript.Proofs.Tree.WellFormed
import MatrixScript.Translator

namespace MatrixScript

/-- The node with nothing filled in. -/
def Node.bare (n : Node) : Node :=
  { category := n.category, name := n.name, value := n.value, children := n.children,
    parent := n.parent }

namespace Tree

/-- The tree with nothing filled in. -/
def bare (t : Tree) : Tree := { t with nodes := t.nodes.map Node.bare }

@[simp] theorem size_bare (t : Tree) : t.bare.size = t.size := by simp [bare, size]

@[simp] theorem node_bare (t : Tree) (id : NodeId) : t.bare.node id = (t.node id).bare := by
  simp only [node_eq_getD, bare, Array.getElem?_map]
  cases t.nodes[id]? <;> rfl

theorem bare_modify {f : Node → Node} (h : ∀ n, (f n).bare = n.bare) (t : Tree) (id : NodeId) :
    (t.modify id f).bare = t.bare := by
  have nodes : (t.nodes.modify id f).map Node.bare = t.nodes.map Node.bare := by
    apply Array.ext_getElem?
    intro i
    simp only [Array.getElem?_map, Array.getElem?_modify]
    split
    · cases t.nodes[i]? <;> simp [h]
    · rfl
  simp only [modify, bare, nodes]

section Same

variable {t t' : Tree} (same : t'.bare = t.bare)
include same

theorem size_of_bare : t'.size = t.size := by rw [← size_bare t', same, size_bare]

theorem root_of_bare : t'.root = t.root := by
  have eq := congrArg Tree.root same
  exact eq

theorem node_of_bare (id : NodeId) : (t'.node id).bare = (t.node id).bare := by
  rw [← node_bare, same, node_bare]

/-- A field that the bare node has too is the same in both trees. -/
theorem field_of_bare {β : Type} (field : Node → β) (kept : ∀ n : Node, field n.bare = field n)
    (id : NodeId) : field (t'.node id) = field (t.node id) := by
  rw [← kept, node_of_bare same, kept]

theorem category_of_bare : t'.category = t.category :=
  funext (field_of_bare same Node.category fun _ => rfl)

theorem children_of_bare : t'.children = t.children :=
  funext (field_of_bare same Node.children fun _ => rfl)

theorem parent?_of_bare : t'.parent? = t.parent? :=
  funext (field_of_bare same Node.parent fun _ => rfl)

theorem name_of_bare (id : NodeId) : (t'.node id).name = (t.node id).name :=
  field_of_bare same Node.name (fun _ => rfl) id

theorem value_of_bare (id : NodeId) : (t'.node id).value = (t.node id).value :=
  field_of_bare same Node.value (fun _ => rfl) id

theorem ancestors_of_bare (id : NodeId) : t'.ancestors id = t.ancestors id := by
  have within : ∀ n id, t'.ancestorsWithin n id = t.ancestorsWithin n id := by
    intro n
    induction n with
    | zero => exact fun _ => rfl
    | succ n ih =>
      intro id
      rw [ancestorsWithin, ancestorsWithin, parent?_of_bare same]
      cases t.parent? id with
      | none => rfl
      | some p => exact congrArg (p :: ·) (ih p)
  rw [ancestors, ancestors, size_of_bare same, within]

theorem position?_of_bare (id : NodeId) : t'.position? id = t.position? id := by
  rw [position?, parent?_of_bare same, children_of_bare same, position?]

theorem group?_of_bare (id : NodeId) : t'.group? id = t.group? id := by
  have inner : (fun a => !isInner (t'.node a).category) = fun a => !isInner (t.node a).category := by
    funext a
    exact congrArg (fun c => !isInner c) (congrFun (category_of_bare same) a)
  rw [group?, ancestors_of_bare same, inner, group?]

theorem enclosingFunction?_of_bare (id : NodeId) :
    t'.enclosingFunction? id = t.enclosingFunction? id := by
  have function : (fun a => (t'.node a).category == .function)
      = fun a => (t.node a).category == .function := by
    funext a
    exact congrArg (· == Category.function) (congrFun (category_of_bare same) a)
  rw [enclosingFunction?, ancestors_of_bare same, function, enclosingFunction?]

/-- Being well formed is a property of the bare tree. -/
theorem WellFormed.of_bare (h : t.WellFormed) : t'.WellFormed where
  root := by
    obtain ⟨root, hroot, last, block, free⟩ := h.root
    refine ⟨root, ?_, ?_, ?_, ?_, ?_⟩
    · rw [root_of_bare same, hroot]
    · rw [size_of_bare same, last]
    · rw [category_of_bare same, block]
    · rw [parent?_of_bare same, free.up]
    · rw [children_of_bare same]
      exact free.loose
  bound := by
    rw [children_of_bare same, size_of_bare same]
    exact h.bound
  held id lt other := by
    rw [size_of_bare same] at lt
    rw [root_of_bare same] at other
    obtain ⟨parent, held⟩ := h.held id lt other
    refine ⟨parent, ?_, ?_, ?_, ?_⟩
    · rw [size_of_bare same]
      exact held.bound
    · rw [parent?_of_bare same]
      exact held.up
    · rw [children_of_bare same]
      exact held.once
    · rw [children_of_bare same]
      exact held.only
  grounded root hroot id lt ne := by
    rw [size_of_bare same] at lt
    rw [root_of_bare same] at hroot
    rw [ancestors_of_bare same]
    exact h.grounded root hroot id lt ne
  shaped id lt := by
    rw [size_of_bare same] at lt
    have shaped := h.shaped id lt
    refine ⟨?_, ?_, ?_, ?_⟩
    · rw [category_of_bare same, children_of_bare same]
      exact shaped.children
    · rw [category_of_bare same, value_of_bare same]
      exact shaped.value
    · rw [category_of_bare same, value_of_bare same]
      exact shaped.spelled
    · rw [category_of_bare same, name_of_bare same]
      exact shaped.name

end Same

end Tree

/-! ## The steps at a node -/

namespace Workspace

theorem bare_modifyNode (w : Workspace) (id : NodeId) {f : Node → Node}
    (h : ∀ n, (f n).bare = n.bare) : (w.modifyNode id f).tree.bare = w.tree.bare :=
  Tree.bare_modify h w.tree id

theorem bare_seed (w : Workspace) (id : NodeId) : (w.seed id).tree.bare = w.tree.bare := by
  refine w.bare_modifyNode id ?_
  exact fun _ => rfl

theorem bare_typeDestination (w : Workspace) (child : NodeId) (d : Datatype) :
    (w.typeDestination child d).tree.bare = w.tree.bare := by
  unfold typeDestination
  dsimp only
  split
  · refine w.bare_modifyNode child ?_
    exact fun _ => rfl
  · refine w.bare_modifyNode child ?_
    exact fun _ => rfl

theorem bare_redirectParent (w : Workspace) (id : NodeId) (b : Builtin) :
    (w.redirectParent id b).tree.bare = w.tree.bare := by
  unfold redirectParent
  split
  · refine w.bare_modifyNode _ ?_
    exact fun _ => rfl
  · rfl

theorem bare_perform (id : NodeId) (w : Workspace) (e : Effect) :
    (w.perform id e).tree.bare = w.tree.bare := by
  cases e with
  | destination child d => exact w.bare_typeDestination child d
  | redirect b => exact w.bare_redirectParent id b
  | hoist node text d =>
    refine bare_modifyNode { w with state := w.state.hoist node text d } node ?_
    exact fun _ => rfl
  | _ => rfl

theorem bare_performAll (id : NodeId) (effects : List Effect) (w : Workspace) :
    (effects.foldl (perform id) w).tree.bare = w.tree.bare := by
  induction effects generalizing w with
  | nil => rfl
  | cons e effects ih => exact (ih _).trans (bare_perform id w e)

theorem bare_commit (w : Workspace) (id : NodeId) (texts : List String) (o : Outcome) :
    (w.commit id texts o).tree.bare = w.tree.bare := by
  refine (bare_modifyNode _ id ?_).trans (bare_performAll id o.effects w)
  exact fun _ => rfl

end Workspace

/-! ## The whole walk -/

namespace Resolving

/-- The step leaves the bare tree. -/
def Keeps {α : Type} (step : Resolving α) : Prop := ∀ w, (step w).2.tree.bare = w.tree.bare

theorem keeps_texts {resolve : NodeId → Resolving String} (h : ∀ id, Keeps (resolve id)) :
    ∀ ids, Keeps (texts resolve ids)
  | [], _ => rfl
  | id :: ids, w => by
    have first := h id w
    unfold texts
    split
    case h_1 e w' eq =>
      rw [eq] at first
      exact first
    case h_2 text w' eq =>
      rw [eq] at first
      have rest := keeps_texts h ids w'
      split
      case h_1 e w'' eq' =>
        rw [eq'] at rest
        exact rest.trans first
      case h_2 texts w'' eq' =>
        rw [eq'] at rest
        exact rest.trans first

theorem keeps_applyRule (id : NodeId) (texts : List String) : Keeps (applyRule id texts) := by
  intro w
  unfold applyRule
  dsimp only
  split
  · exact w.bare_seed id
  · exact (Workspace.bare_commit _ id texts _).trans (w.bare_seed id)

theorem keeps_node {resolve : NodeId → Resolving String} (h : ∀ id, Keeps (resolve id))
    (id : NodeId) : Keeps (node resolve id) := by
  intro w
  have children := keeps_texts h (w.tree.children id) w
  unfold node
  split
  case h_1 e w' eq =>
    rw [eq] at children
    exact children
  case h_2 texts w' eq =>
    rw [eq] at children
    exact (keeps_applyRule id texts w').trans children

theorem keeps_statementLines {resolve : NodeId → Resolving String} (h : ∀ id, Keeps (resolve id))
    (id : NodeId) (w : Workspace) : (statementLines resolve id w).2.tree.bare = w.tree.bare := by
  have resolved := h id { w with state := w.state.withPending [] }
  unfold statementLines
  dsimp only
  split
  · exact resolved
  · exact resolved

theorem keeps_blockLines {resolve : NodeId → Resolving String} (h : ∀ id, Keeps (resolve id)) :
    ∀ ids w, (blockLines resolve ids w).2.tree.bare = w.tree.bare
  | [], _ => rfl
  | id :: ids, w => (keeps_blockLines h ids _).trans (keeps_statementLines h id w)

theorem keeps_inScope {step : Resolving String} (h : Keeps step) :
    Keeps (inScope step) := fun w => h { w with state := w.state.pushScope }

theorem keeps_resolveWithin (depth : Nat) : ∀ id, Keeps (resolveWithin depth id) := by
  induction depth with
  | zero => exact fun _ _ => rfl
  | succ depth ih =>
    intro id w
    unfold resolveWithin
    split
    · exact keeps_blockLines ih (w.tree.children id) w
    · exact keeps_inScope (keeps_node ih id) w
    · exact keeps_node ih id w

/-! ## The kinds of nodes, as the program has them -/

section Kinds

variable {t : Tree} {w : Workspace} (same : w.tree.bare = t.bare) (depth : Nat) {id : NodeId}
include same

theorem resolveWithin_block (block : t.category id = .block) :
    resolveWithin (depth + 1) id w = Resolving.block (resolveWithin depth) id w := by
  have kind : (w.tree.node id).category = .block :=
    (congrFun (Tree.category_of_bare same) id).trans block
  rw [resolveWithin, kind]

theorem resolveWithin_function (function : t.category id = .function) :
    resolveWithin (depth + 1) id w = inScope (node (resolveWithin depth) id) w := by
  have kind : (w.tree.node id).category = .function :=
    (congrFun (Tree.category_of_bare same) id).trans function
  rw [resolveWithin, kind]

end Kinds

theorem bare_rootLines (w : Workspace) : (rootLines w).2.tree.bare = w.tree.bare := by
  unfold rootLines
  split
  · rfl
  · dsimp only
    split
    · exact keeps_blockLines (keeps_resolveWithin _) _ w
    · exact keeps_statementLines (keeps_resolveWithin _) _ w

end Resolving

/-- Translating a tree leaves the program in it. -/
theorem Translator.bare_translate (t : Translator) (tree : Tree) :
    (t.translate tree).2.1.bare = tree.bare :=
  Resolving.bare_rootLines ⟨tree, t.state⟩

end MatrixScript
