/-
# `Proofs.Tree.Raw` — what a parsed tree starts with

Numbering puts nothing into the slots that translation fills in, it names nodes
by identifiers, and no string that it keeps has a line end (`raw_of_parse`).
Links between nodes play no part in this, so one lemma about each function that
appends nodes is enough: what was raw stays raw (`Build.Keeps`).
-/
import MatrixScript.Proofs.Tree.OfProgram
import MatrixScript.Proofs.Translation.Bare

namespace MatrixScript

/-- A node as the parser makes it. -/
structure Node.Raw (n : Node) : Prop where
  /-- nothing is filled in -/
  bare : n.bare = n
  name : n.category.isNamed → isName n.name
  line : ∀ s, n.category = .str → n.value = some s → '\n' ∉ s.toList

/-- The links of a node do not matter. -/
theorem Node.Raw.link {n : Node} (h : n.Raw) (parent : Option NodeId) (children : List NodeId) :
    { n with parent, children }.Raw where
  bare := by
    show { n.bare with parent, children } = { n with parent, children }
    rw [h.bare]
  name := h.name
  line := h.line

namespace Tree

/-- Every node is as the parser makes it. -/
def Raw (t : Tree) : Prop := ∀ id, (t.node id).Raw

theorem raw_empty : empty.Raw := fun _ => ⟨rfl, nofun, nofun⟩

/-- A raw tree has nothing filled in. -/
theorem Raw.bare {t : Tree} (h : t.Raw) : t.bare = t := by
  have nodes : t.nodes.map Node.bare = t.nodes := by
    apply Array.ext_getElem?
    intro i
    rw [Array.getElem?_map]
    cases found : t.nodes[i]? with
    | none => rfl
    | some n =>
      have node : t.node i = n := by rw [node_eq_getD, found, Option.getD_some]
      exact congrArg some (node ▸ (h i).bare)
  simp only [Tree.bare, nodes]

/-- What holds of nodes with nothing filled in holds of every node. -/
theorem Raw.forall_node {t : Tree} (h : t.Raw) {p : Node → Prop} (bare : ∀ n : Node, p n.bare)
    (i : NodeId) : p (t.node i) :=
  (h i).bare ▸ bare (t.node i)

theorem Raw.modify {t : Tree} (h : t.Raw) {i : NodeId} {f : Node → Node}
    (step : (t.node i).Raw → (f (t.node i)).Raw) : (t.modify i f).Raw := by
  intro j
  rw [node_modify]
  split
  case isTrue here =>
    obtain ⟨rfl, -⟩ := here
    exact step (h j)
  case isFalse => exact h j

theorem Raw.insert {t : Tree} (h : t.Raw) {n : Node} (raw : n.Raw) : (t.insert n).Raw := by
  have pushed : (t.pushNode n).Raw := by
    intro j
    by_cases new : j = t.size
    · rw [new, node_pushNode_new]
      exact raw
    · rw [node_pushNode_of_ne new]
      exact h j
  have held : ∀ (ids : List NodeId) (parent : NodeId) {t : Tree}, t.Raw →
      (t.setParents parent ids).Raw := by
    intro ids parent
    induction ids with
    | nil => exact fun h => h
    | cons i ids ih => exact fun h => ih (h.modify fun raw => raw.link (some parent) _)
  exact held n.children t.size pushed

theorem Raw.adopt {t : Tree} (h : t.Raw) (parent child : NodeId) : (t.adopt parent child).Raw :=
  (h.modify fun raw => raw.link (some parent) _).modify fun raw => raw.link _ (_ ++ [child])

namespace Build

variable {α β : Type}

/-- Raw trees stay raw. -/
def Keeps (b : Build α) : Prop := ∀ t, t.Raw → (b t).2.Raw

theorem keeps_pure (a : α) : Keeps (pure a : Build α) := fun _ raw => raw

theorem Keeps.bind {b : Build α} {f : α → Build β} (h : Keeps b) (h' : ∀ a, Keeps (f a)) :
    Keeps (b >>= f) := fun t raw => h' _ _ (h t raw)

theorem keeps_node {c : Category} {x : String} (name : c.isNamed → isName x)
    (ids : List NodeId) : Keeps (node c x ids) := fun _ raw => raw.insert ⟨rfl, name, nofun⟩

/-- A node without a name. -/
theorem keeps_plain {c : Category} (nameless : c.isNamed = false) (ids : List NodeId) :
    Keeps (node c "" ids) := by
  refine keeps_node (fun named => ?_) ids
  rw [nameless] at named
  cases named

theorem keeps_literal {kind : LiteralKind} {s : String} (spelled : kind.spells s) :
    Keeps (literal kind.category s) := by
  intro t raw
  refine raw.insert ⟨rfl, fun named => ?_, fun s' string value => ?_⟩
  · cases kind <;> cases named
  · obtain rfl := Option.some.inj value
    cases kind with
    | str => exact fun mem => absurd (List.all_eq_true.mp spelled _ mem) (by decide)
    | int | float | imag => cases string

theorem keeps_adoptAll (parent : NodeId) (ids : List NodeId) : Keeps (adoptAll parent ids) := by
  intro t raw
  show (ids.foldl _ t).Raw
  induction ids generalizing t with
  | nil => exact raw
  | cons i ids ih => exact ih _ (raw.adopt parent i)

theorem keeps_each {one : α → Build NodeId} :
    ∀ {as : List α}, (∀ a ∈ as, Keeps (one a)) → Keeps (each one as)
  | [], _ => keeps_pure _
  | a :: as, h => by
    obtain ⟨first, rest⟩ := List.forall_mem_cons.mp h
    exact first.bind fun _ => (keeps_each rest).bind fun _ => keeps_pure _

/-- A call: the node first, then its arguments. -/
theorem keeps_call {c : Category} {f : String} (hf : isName f) {b : Build (List NodeId)}
    (h : Keeps b) : Keeps (do
      let id ← node c f []
      adoptAll id (← b)
      return id) :=
  (keeps_node (fun _ => hf) []).bind fun _ => h.bind fun _ =>
    (keeps_adoptAll _ _).bind fun _ => keeps_pure _

/-! ## Expressions -/

theorem isNamed_sign (op : SignOp) : op.category.isNamed = false := by cases op <;> rfl

theorem isNamed_transpose (op : TransposeOp) : op.category.isNamed = false := by cases op <;> rfl

theorem isNamed_chain (op : ChainOp) : op.category.isNamed = false := by cases op <;> rfl

theorem isNamed_comparison (op : Comparison) : op.category.isNamed = false := by cases op <;> rfl

mutual

theorem keeps_expr : ∀ (e : Expr), Parser.Argument e → Keeps (expr e)
  | .name _, h => keeps_node (fun _ => Parser.isName_of_canonical (h nofun)) []
  | .call _ arguments, h => by
    cases h nofun with
    | call hf hes => exact keeps_call hf (keeps_exprs arguments hes)
  | .cellCall _ arguments, h => by
    cases h nofun with
    | cellCall hf hes => exact keeps_call hf (keeps_exprs arguments hes)
  | .literal _ _, h => by
    cases h nofun with
    | literal spelled => exact keeps_literal spelled
  | .last, _ => keeps_plain rfl []
  | .all, _ => keeps_plain rfl []
  | .paren inner, h => by
    cases h nofun with
    | paren canonical =>
      exact (keeps_expr inner (Parser.argument_of_canonical canonical)).bind fun _ =>
        keeps_plain rfl _
  | .matrix rows, h => by
    cases h nofun with
    | matrix _ canonical =>
      exact (keeps_rowsOf rows canonical).bind fun _ =>
        (keeps_each fun _ _ => keeps_plain rfl _).bind fun _ => keeps_plain rfl _
  | .cell elements, h => by
    cases h nofun with
    | cell canonical =>
      exact (keeps_exprs elements fun e mem =>
        Parser.argument_of_canonical (canonical e mem)).bind fun _ => keeps_plain rfl _
  | .sign op operand, h => by
    cases h nofun with
    | sign canonical =>
      exact (keeps_expr operand (Parser.argument_of_canonical canonical)).bind fun _ =>
        keeps_plain (isNamed_sign op) _
  | .transpose op operand, h => by
    cases h nofun with
    | transpose canonical =>
      exact (keeps_expr operand (Parser.argument_of_canonical canonical)).bind fun _ =>
        keeps_plain (isNamed_transpose op) _
  | .chain op first second more, h => by
    cases h nofun with
    | chain canonical _ _ others =>
      obtain ⟨next, rest⟩ := List.forall_mem_cons.mp others
      exact (keeps_expr first (Parser.argument_of_canonical canonical)).bind fun _ =>
        (keeps_expr second (Parser.argument_of_canonical next)).bind fun _ =>
          (keeps_plain (isNamed_chain op) _).bind fun _ =>
            (keeps_operands more rest _).bind fun _ => keeps_pure _
  | .compare op left right, h => by
    cases h nofun with
    | compare hl _ hr =>
      exact (keeps_expr left (Parser.argument_of_canonical hl)).bind fun _ =>
        (keeps_expr right (Parser.argument_of_canonical hr)).bind fun _ =>
          keeps_plain (isNamed_comparison op) _
  | .range start stop, h => by
    cases h nofun with
    | range ha _ hb =>
      exact (keeps_expr start (Parser.argument_of_canonical ha)).bind fun _ =>
        (keeps_expr stop (Parser.argument_of_canonical hb)).bind fun _ => keeps_plain rfl _
  | .stepped start step stop, h => by
    cases h nofun with
    | stepped ha _ hb _ hc =>
      exact (keeps_expr start (Parser.argument_of_canonical ha)).bind fun _ =>
        (keeps_expr step (Parser.argument_of_canonical hb)).bind fun _ =>
          (keeps_expr stop (Parser.argument_of_canonical hc)).bind fun _ => keeps_plain rfl _

theorem keeps_exprs : ∀ (es : List Expr), (∀ e ∈ es, Parser.Argument e) → Keeps (exprs es)
  | [], _ => keeps_pure _
  | e :: es, h => by
    obtain ⟨first, rest⟩ := List.forall_mem_cons.mp h
    exact (keeps_expr e first).bind fun _ => (keeps_exprs es rest).bind fun _ => keeps_pure _

theorem keeps_rowsOf : ∀ (rows : List (List Expr)), (∀ row ∈ rows, ∀ e ∈ row, e.Canonical) →
    Keeps (rowsOf rows)
  | [], _ => keeps_pure _
  | row :: rows, h => by
    obtain ⟨first, rest⟩ := List.forall_mem_cons.mp h
    exact (keeps_exprs row fun e mem => Parser.argument_of_canonical (first e mem)).bind fun _ =>
      (keeps_rowsOf rows rest).bind fun _ => keeps_pure _

theorem keeps_operands : ∀ (es : List Expr), (∀ e ∈ es, e.Canonical) → ∀ parent : NodeId,
    Keeps (operands parent es)
  | [], _, _ => keeps_pure _
  | e :: es, h, parent => by
    obtain ⟨first, rest⟩ := List.forall_mem_cons.mp h
    exact (keeps_expr e (Parser.argument_of_canonical first)).bind fun _ =>
      (keeps_adoptAll _ _).bind fun _ => keeps_operands es rest parent

end

theorem keeps_canonical {e : Expr} (h : e.Canonical) : Keeps (expr e) :=
  keeps_expr e (Parser.argument_of_canonical h)

/-! ## Statements, functions, programs -/

theorem keeps_target {target : Target} (h : target.Canonical) : Keeps (Build.target target) := by
  cases target with
  | «variable» x => exact keeps_node (fun _ => h) []
  | element x arguments => exact keeps_call h.1 (keeps_exprs arguments h.2)

theorem keeps_statement {s : Statement} (h : s.Accepted) : Keeps (statement s) := by
  cases s with
  | expression e =>
    have canonical : e.Canonical := h
    exact (keeps_canonical canonical).bind fun _ => keeps_plain rfl _
  | assign target value =>
    have canonical : value.Canonical := h.2
    exact (keeps_target h.1).bind fun _ => (keeps_canonical canonical).bind fun _ =>
      keeps_plain rfl _
  | assigns targets value =>
    have canonical : value.Canonical := h.2
    exact (keeps_each fun target mem => keeps_target (h.1 target mem)).bind fun _ =>
      (keeps_canonical canonical).bind fun _ => keeps_plain rfl _
  | ret => exact keeps_plain rfl []
  | brk => exact keeps_plain rfl []
  | command name words =>
    have one : ∀ word ∈ words, Keeps (literal .str word) := fun word mem =>
      keeps_literal (h.2 word mem)
    have literals : Keeps (each (literal .str) words) := keeps_each one
    exact literals.bind fun ids => (keeps_node (fun _ => h.1) ids).bind fun _ => keeps_plain rfl _

theorem keeps_named {xs : List String} (h : ∀ x ∈ xs, isName x) : Keeps (each named xs) :=
  keeps_each fun x mem => keeps_node (fun _ => h x mem) []

theorem keeps_function {f : Function} (h : f.Spelled Statement.Accepted) :
    Keeps (function f) := by
  have body : Keeps (each statement f.body) :=
    keeps_each fun s mem => keeps_statement (h.body s mem)
  refine (keeps_named h.outputs).bind fun outputs => ?_
  refine (keeps_named h.params).bind fun params => body.bind fun body => ?_
  refine (keeps_plain rfl params).bind fun params => ?_
  refine (keeps_plain rfl outputs).bind fun returns => ?_
  exact (keeps_plain rfl body).bind fun block => keeps_node (fun _ => h.name) _

theorem keeps_item {i : Item} (h : i.Spelled Statement.Accepted) : Keeps (item i) := by
  cases i with
  | statement s => exact keeps_statement h
  | function f => exact keeps_function h

theorem keeps_program {p : Program} (h : p.Accepted) : Keeps (program p) :=
  (keeps_each fun i mem => keeps_item (h i mem)).bind fun _ => keeps_plain rfl _

end Build

/-! ## The whole tree -/

theorem raw_ofProgram {p : Program} (h : p.Accepted) : (ofProgram p).Raw :=
  Build.keeps_program h empty raw_empty

/-- Every tree that the parser gives is raw. -/
theorem raw_of_parse {source : String} {t : Tree} (h : parse source = .ok t) : t.Raw := by
  obtain ⟨p, accepted, rfl⟩ := exists_program_of_parse h
  exact raw_ofProgram accepted

end Tree

end MatrixScript
