/-
# `Proofs.Translation.Scalar` — translation keeps the value of scalar arithmetic

Resolving an expression of plain arithmetic never fails, changes no node outside
of the expression and nothing that is remembered, and gives a text that is worth
the expression (`Resolving.resolves_of_scalar`).  The induction is on the
expression: its operands are resolved one after the other, each of them apart
from the nodes of the next, and the rule of the operator puts their texts
together.  An assignment of such an expression is then one line, whose right
side reads as C++ with the value of the expression
(`value_of_translateWith`).
-/
import MatrixScript.Proofs.Program.Accepted
import MatrixScript.Proofs.Rule.Scalar
import MatrixScript.Proofs.Text.Lines
import MatrixScript.Proofs.Tree.Stands
import MatrixScript.Translator

namespace MatrixScript

/-! ## Lines -/

/-- An assignment to a name of a text that is worth something stands on one line. -/
theorem lines_assign {floating : String → Bool} {y text : String} {c : StorageClass} {ℓ : Nat}
    {v : Env → Option ℚ} (name : isName y) (h : Cpp.Denotes floating text c ℓ v) :
    Text.lines (y ++ " = " ++ text ++ " ;") = [y ++ " = " ++ text ++ " ;"] := by
  obtain ⟨e, spelled, canonical, -⟩ := h
  refine Text.lines_eq ?_ ?_
  · simp
  · simp [spelled, canonical.no_newline, Cpp.no_newline_of_isName name]

/-! ## One node -/

/-- What was remembered is as it was, and so is every node but `ids`. -/
structure Workspace.Confined (w w' : Workspace) (ids : List NodeId) : Prop where
  state : w'.state = w.state
  size : w'.tree.size = w.tree.size
  kept : ∀ i, i ∉ ids → w'.tree.node i = w.tree.node i

theorem Workspace.Confined.trans {w w' w'' : Workspace} {ids ids' : List NodeId}
    (h : w.Confined w' ids) (h' : w'.Confined w'' ids') : w.Confined w'' (ids ++ ids') where
  state := h'.state.trans h.state
  size := h'.size.trans h.size
  kept i out := by
    obtain ⟨first, second⟩ := not_or.mp fun mem => out (List.mem_append.mpr mem)
    exact (h'.kept i second).trans (h.kept i first)

theorem Workspace.Confined.mono {w w' : Workspace} {ids ids' : List NodeId}
    (h : w.Confined w' ids) (sub : ∀ i ∈ ids, i ∈ ids') : w.Confined w' ids' where
  state := h.state
  size := h.size
  kept i out := h.kept i fun mem => out (sub i mem)

theorem Rule.select_eq {tree : Tree} {n : Node} {rule : Rule} (plain : builtinOf? tree n = none)
    (own : ofCategory? n.category = some rule) : select tree n = rule := by
  rw [select, plain]
  show (ofCategory? n.category).getD untranslated = rule
  rw [own]
  rfl

namespace Resolving

variable {w : Workspace} {id : NodeId} {found : List String}

theorem node_seed (lt : id < w.tree.size) : (w.seed id).tree.node id
    = { w.tree.node id with typing := Workspace.seedTyping w.tree (w.tree.node id) } :=
  Tree.node_modify_self lt _

/-- A rule without effects fills in its own node and nothing else. -/
theorem applyRule_of_outcome (lt : id < w.tree.size) {rule : Rule} {outcome : Outcome}
    (plain : Rule.builtinOf? (w.seed id).tree ((w.seed id).tree.node id) = none)
    (own : Rule.ofCategory? (w.tree.node id).category = some rule)
    (ok : rule ((w.seed id).site id found) = .ok outcome) (effects : outcome.effects = []) :
    ∃ w' node, applyRule id found w = (.ok (outcome.template.render node found), w')
      ∧ node = { (w.seed id).tree.node id with typing := outcome.typing }
      ∧ w.Confined w' [id] ∧ (w'.tree.node id).typing = outcome.typing
      ∧ (w'.tree.node id).written = (w.tree.node id).written := by
  have seeded := node_seed lt
  have select : Rule.select (w.seed id).tree ((w.seed id).tree.node id) = rule := by
    refine Rule.select_eq plain ?_
    rw [seeded]
    exact own
  have lt' : id < (w.seed id).tree.size := (Tree.size_modify ..).symm ▸ lt
  have committed : ((w.seed id).commit id found outcome).tree.node id
      = { (w.seed id).tree.node id with
          typing := outcome.typing
          rendered := some ((w.seed id).textOf id found outcome) } := by
    rw [Workspace.commit, effects]
    exact Tree.node_modify_self lt' _
  refine ⟨(w.seed id).commit id found outcome, _, ?_, rfl, ⟨?_, ?_, ?_⟩, ?_, ?_⟩
  case refine_1 =>
    unfold applyRule
    dsimp only
    rw [select, ok]
    rfl
  case refine_2 =>
    rw [Workspace.commit, effects]
    rfl
  case refine_3 =>
    rw [Workspace.commit, effects]
    exact (Tree.size_modify ..).trans (Tree.size_modify ..)
  case refine_4 =>
    intro i out
    have ne : i ≠ id := fun eq => out (List.mem_singleton.mpr eq)
    rw [Workspace.commit, effects]
    exact (Tree.node_modify_of_ne ne _).trans (Tree.node_modify_of_ne ne _)
  case refine_5 => rw [committed]
  case refine_6 =>
    rw [committed, seeded]
    rfl

/-! ## Operands -/

/-- Nodes with their texts, as a rule sees them. -/
def operandsAt (tree : Tree) (roots : List NodeId) (texts : List String) : List Operand :=
  (roots.zip texts).map fun (c, text) => ⟨c, tree.node c, text⟩

theorem operandsAt_congr {t t' : Tree} {roots : List NodeId}
    (same : ∀ c ∈ roots, t'.node c = t.node c) (texts : List String) :
    operandsAt t' roots texts = operandsAt t roots texts := by
  refine List.map_congr_left fun pair mem => ?_
  obtain ⟨c, text⟩ := pair
  exact congrArg (Operand.mk c · text) (same c (List.of_mem_zip mem).1)

theorem map_operandsAt {β : Type} {t : Tree} {roots : List NodeId}
    (lengths : found.length = roots.length) (f : Node → β) :
    (operandsAt t roots found).map (fun o => f o.node) = roots.map fun c => f (t.node c) := by
  have firsts : (roots.zip found).map Prod.fst = roots :=
    List.map_fst_zip (Nat.le_of_eq lengths.symm)
  rw [operandsAt, List.map_map]
  conv_rhs => rw [← firsts, List.map_map]
  rfl

variable {floating : String → Bool}

theorem numeric_of_renders {os : List Operand} {es : List Expr}
    (renders : List.Forall₂ (Operand.Renders floating) os es) : os.all (·.node.numeric) := by
  rw [List.all_eq_true]
  refine Operand.forall_of_renders (fun {o _} h => ?_) renders
  rw [Node.numeric, h.typing]
  exact StorageClass.isNumeric_of_isReal h.real

theorem texts_site (lt : id < w.tree.size) (lengths : found.length = (w.tree.children id).length) :
    ((w.seed id).site id found).texts = found := by
  have children : (w.seed id).tree.children id = w.tree.children id := by
    rw [Tree.children, node_seed lt]
    rfl
  show (((((w.seed id).tree.children id).zip found).map _).map _ : List String) = _
  rw [children, List.map_map]
  exact List.map_snd_zip (Nat.le_of_eq lengths)

/-- What the rule of an operator sees of its resolved operands. -/
theorem site_renders {roots : List NodeId} {es : List Expr} (lt : id < w.tree.size)
    (children : w.tree.children id = roots) (apart : id ∉ roots)
    (operator : (w.tree.node id).category.isOperator) (lengths : found.length = roots.length)
    (renders : List.Forall₂ (Operand.Renders floating) (operandsAt w.tree roots found) es) :
    ((w.seed id).site id found).Renders floating es := by
  have seeded := node_seed lt
  have operands : ((w.seed id).site id found).operands = operandsAt w.tree roots found := by
    have children' : (w.seed id).tree.children id = roots := by
      rw [Tree.children, seeded]
      exact children
    show operandsAt (w.seed id).tree ((w.seed id).tree.children id) found = _
    rw [children']
    refine operandsAt_congr (fun c mem => ?_) found
    have ne : c ≠ id := by
      rintro rfl
      exact apart mem
    exact Tree.node_modify_of_ne ne _
  refine ⟨operands ▸ renders, ?_⟩
  have all := numeric_of_renders renders
  have types : ((w.seed id).site id found).types = roots.map fun c => (w.tree.node c).datatype := by
    rw [Site.types, operands]
    exact map_operandsAt lengths Node.datatype
  have numeric : (roots.map w.tree.node).all (·.numeric) := by
    have nodes := congrArg (List.all · fun b => b)
      (map_operandsAt (t := w.tree) lengths Node.numeric)
    rw [List.all_map, List.all_map] at nodes
    rw [List.all_map]
    exact nodes.symm.trans all
  rw [types]
  show ((w.seed id).tree.node id).typing = _
  rw [seeded]
  show Workspace.seedTyping w.tree (w.tree.node id) = _
  rw [Workspace.seedTyping, if_pos operator]
  dsimp only
  have children'' : (w.tree.node id).children = roots := children
  rw [children'', List.map_map, numeric, Bool.and_true]
  rfl

/-! ## Expressions -/

variable {declarations : NameTable Datatype} {depth : Nat} {e m : Expr}

/-- Wherever the expression `e` stands, resolving it gives a text that is worth `m`. -/
def ResolvesTo (declarations : NameTable Datatype) (depth : Nat) (e m : Expr) : Prop :=
  ∀ (w : Workspace) (ids : List NodeId) (id : NodeId), w.tree.Stands ids id e →
    (∀ i ∈ ids, i < w.tree.size) → w.state.config.declarations = declarations →
    ids.length ≤ depth →
    ∃ text w', resolveWithin depth id w = (.ok text, w') ∧ w.Confined w' ids
      ∧ (Operand.mk id (w'.tree.node id) text).Renders (isFloatingIn declarations) m

/-- Wherever the expression stands, resolving it gives a text that is worth it. -/
abbrev Resolves (declarations : NameTable Datatype) (depth : Nat) (e : Expr) : Prop :=
  ResolvesTo declarations depth e e

/-- Operands are resolved one after the other, none of them touching another. -/
theorem texts_of_resolves : ∀ {es ms : List Expr},
    List.Forall₂ (ResolvesTo declarations depth) es ms →
    ∀ {w : Workspace} {ids roots : List NodeId}, w.tree.StandAll ids roots es →
      (∀ i ∈ ids, i < w.tree.size) → w.state.config.declarations = declarations →
      ids.length ≤ depth →
      ∃ found w', texts (resolveWithin depth) roots w = (.ok found, w') ∧ w.Confined w' ids
        ∧ found.length = roots.length
        ∧ List.Forall₂ (Operand.Renders (isFloatingIn declarations))
            (operandsAt w'.tree roots found) ms
  | [], [], .nil, w, _, _, .nil, _, _, _ =>
    ⟨[], w, rfl, ⟨rfl, rfl, fun _ _ => rfl⟩, rfl, .nil⟩
  | e :: es, m :: ms, .cons here there, w, _, _,
      @Tree.StandAll.cons _ ids ids' _ id _ _ first rest apart, bound, config, enough => by
    rw [List.length_append] at enough
    obtain ⟨text, w₁, run, confined, renders⟩ :=
      here w ids id first (fun i mem => bound i (List.mem_append_left _ mem)) config (by omega)
    have rest₁ : w₁.tree.StandAll ids' _ es := rest.congr fun i mem => by
      rw [confined.kept i fun mem' => apart i mem' mem]
    obtain ⟨found, w₂, run', confined', lengths, renders'⟩ := texts_of_resolves there rest₁
      (fun i mem => confined.size ▸ bound i (List.mem_append_right _ mem))
      (by rw [confined.state, config]) (by omega)
    refine ⟨text :: found, w₂, ?_, confined.trans confined', congrArg (· + 1) lengths, ?_⟩
    · unfold texts
      rw [run]
      dsimp only
      rw [run']
    · refine .cons ?_ renders'
      have kept := confined'.kept id (apart id first.mem)
      show (Operand.mk id (w₂.tree.node id) text).Renders _ m
      rwa [kept]

theorem resolveWithin_eq_node (depth : Nat)
    (inner : (w.tree.node id).category ≠ .block ∧ (w.tree.node id).category ≠ .function) :
    resolveWithin (depth + 1) id w = node (resolveWithin depth) id w := by
  rw [resolveWithin]
  split
  case h_1 block => exact absurd block inner.1
  case h_2 function => exact absurd function inner.2
  case h_3 => rfl

/-- A node whose rule has no effects is resolved after its children. -/
theorem resolveWithin_of_outcome {w₁ : Workspace} {n : Node} {ids roots : List NodeId}
    (lt : id < w.tree.size) (written : (w.tree.node id).written = n) (children : n.children = roots)
    (inner : n.category ≠ .block ∧ n.category ≠ .function)
    (run : texts (resolveWithin depth) roots w = (.ok found, w₁)) (confined : w.Confined w₁ ids)
    (apart : id ∉ ids) {rule : Rule} {outcome : Outcome}
    (plain : ∀ tree, ∀ m : Node, m.written = n → Rule.builtinOf? tree m = none)
    (own : Rule.ofCategory? n.category = some rule)
    (ok : rule ((w₁.seed id).site id found) = .ok outcome) (effects : outcome.effects = []) :
    ∃ w' m, resolveWithin (depth + 1) id w = (.ok (outcome.template.render m found), w')
      ∧ m.written = n ∧ w.Confined w' (id :: ids) ∧ (w'.tree.node id).typing = outcome.typing
      ∧ (w'.tree.node id).written = n := by
  have same : w₁.tree.node id = w.tree.node id := confined.kept id apart
  have lt₁ : id < w₁.tree.size := confined.size ▸ lt
  have category := Node.category_of_written written
  have children' : w.tree.children id = roots := (Node.children_of_written written).trans children
  have seeded : ((w₁.seed id).tree.node id).written = n := by
    rw [node_seed lt₁, same]
    exact written
  obtain ⟨w', m, applied, eq, confined', typing, written'⟩ :=
    applyRule_of_outcome lt₁ (plain _ _ seeded) (by rw [same, category, own]) ok effects
  refine ⟨w', m, ?_, ?_, ?_, typing, ?_⟩
  case refine_1 =>
    rw [resolveWithin_eq_node depth (by rwa [category]), node, children', run]
    exact applied
  case refine_2 =>
    rw [eq]
    exact seeded
  case refine_3 =>
    refine (confined.trans confined').mono fun i mem => ?_
    rcases List.mem_append.mp mem with mem | mem
    · exact List.mem_cons_of_mem _ mem
    · exact List.mem_singleton.mp mem ▸ List.mem_cons_self
  case refine_4 =>
    rw [same] at written'
    exact written'.trans written

/-- Only names, calls and assignments to several destinations are about a built-in. -/
theorem builtinOf?_of_written {tree : Tree} {m n : Node} (written : m.written = n)
    (redirect : n.redirect = none) (other : n.category ∉ [.var, .get, .assigns]) :
    Rule.builtinOf? tree m = none := by
  subst written
  have none : m.redirect = .none := redirect
  have other : m.category ∉ [.var, .get, .assigns] := other
  rw [Rule.builtinOf?, none]
  dsimp only
  split
  case h_1 eq => simp [eq] at other
  case h_2 eq => simp [eq] at other
  case h_3 eq => simp [eq] at other
  case h_4 => rfl

theorem builtinOf?_of_free {tree : Tree} {m : Node} {x : String}
    (written : m.written = { category := .var, name := x }) (free : Builtin.isReserved x = false) :
    Rule.builtinOf? tree m = none := by
  rw [Rule.builtinOf?, Node.redirect_of_written written]
  dsimp only
  rw [Node.category_of_written written, Node.name_of_written written]
  rwa [Builtin.isReserved, Option.isSome_eq_false_iff, Option.isNone_iff_eq_none] at free

theorem ne_of_isOperator {c d : Category} (h : c.isOperator) (other : d.isOperator = false) :
    c ≠ d := by
  rintro rfl
  rw [other] at h
  cases h

theorem not_mem_of_isOperator {c : Category} (h : c.isOperator) : c ∉ [.var, .get, .assigns] := by
  intro mem
  simp only [List.mem_cons, List.not_mem_nil, or_false] at mem
  rcases mem with rfl | rfl | rfl <;> cases h

theorem renders_of_typing {n : Node} {text : String} {c : StorageClass} (real : c.isReal)
    (typing : n.typing = .of (.scalar c))
    (denotes : Cpp.Denotes floating text c (Cpp.levelOf e.level) fun env => e.value env)
    (widened : n.category = .int →
      Cpp.Denotes floating (text ++ ".0") .float 2 fun env => e.value env) :
    (Operand.mk id n text).Renders floating e := by
  have cls : (Operand.mk id n text).cls = c := congrArg (fun t => t.datatype.cls) typing
  refine ⟨?_, ?_, ?_, widened⟩
  · rwa [cls]
  · rw [cls]
    exact typing
  · rwa [cls]

/-- A node without children, and what its rule has to answer. -/
theorem resolves_leaf (n : Node) (rule : Rule) (template : Template) {c : StorageClass}
    (real : c.isReal) (leaf : n.children = [])
    (inner : n.category ≠ .block ∧ n.category ≠ .function)
    (stands : ∀ {t : Tree} {ids : List NodeId} {id : NodeId}, t.Stands ids id e →
      ids = [id] ∧ (t.node id).written = n)
    (plain : ∀ tree, ∀ m : Node, m.written = n → Rule.builtinOf? tree m = none)
    (own : Rule.ofCategory? n.category = some rule)
    (ok : ∀ s : Site, s.node.written = n → s.state.config.declarations = declarations →
      rule s = .ok ⟨template, .of (.scalar c), []⟩)
    (denotes : ∀ m : Node, m.written = n →
      Cpp.Denotes (isFloatingIn declarations) (template.render m []) c (Cpp.levelOf e.level)
        fun env => e.value env)
    (widened : ∀ m : Node, m.written = n → n.category = .int →
      Cpp.Denotes (isFloatingIn declarations) (template.render m [] ++ ".0") .float 2
        fun env => e.value env)
    (depth : Nat) : Resolves declarations depth e := by
  intro w ids id h bound config enough
  obtain ⟨rfl, written⟩ := stands h
  obtain ⟨depth, rfl⟩ := Nat.exists_eq_add_one_of_ne_zero (n := depth)
    (Nat.ne_of_gt (Nat.lt_of_succ_le enough))
  have lt := bound id List.mem_cons_self
  have ok' := ok ((w.seed id).site id [])
    (by rw [Site.node]; exact (congrArg Node.written (node_seed lt)).trans written) config
  obtain ⟨w', m, run, eq, confined, typing, written'⟩ :=
    resolveWithin_of_outcome lt written leaf inner rfl ⟨rfl, rfl, fun _ _ => rfl⟩
      List.not_mem_nil plain own ok' rfl
  have category := Node.category_of_written written'
  refine ⟨_, w', run, confined, renders_of_typing real typing (denotes m eq) fun int => ?_⟩
  exact widened m eq (category.symm.trans int)

theorem resolves_name {x : String} {c : StorageClass} (free : Builtin.isReserved x = false)
    (declared : declarations.get? x = some (.scalar c)) (real : c.isReal) (name : isName x)
    (depth : Nat) : Resolves declarations depth (.name x) := by
  have own : ∀ m : Node, m.written = { category := .var, name := x } → m.name = x :=
    fun m eq => Node.name_of_written eq
  refine resolves_leaf { category := .var, name := x } Rule.var (.format "%(name)s") real rfl
    ⟨nofun, nofun⟩ ?_ ?_ rfl ?_ ?_ (fun _ _ => nofun) depth
  case refine_1 =>
    intro t ids id h
    cases h with
    | name written => exact ⟨rfl, written⟩
  case refine_2 => exact fun _ _ eq => builtinOf?_of_free eq free
  case refine_3 =>
    intro s eq config
    have lookup : s.lookup s.name = some (.scalar c) := by
      rw [Site.name, own _ eq, Site.lookup, State.lookup, config, declared]
    rw [Rule.var, lookup]
    rfl
  case refine_4 =>
    intro m eq
    rw [Template.render_name, own m eq]
    refine Cpp.denotes_name name fun float => ?_
    rw [isFloatingIn, declared, float]
    exact beq_self_eq_true _

theorem resolves_literal {kind : LiteralKind} {rule : Rule} {c : StorageClass} {s : String}
    (real : c.isReal) (number : kind.category.isNumber)
    (own : Rule.ofCategory? kind.category = some rule)
    (ok : ∀ s : Site, rule s = .ok ⟨.format "%(value)s", .of (.scalar c), []⟩)
    (denotes : Cpp.Denotes (isFloatingIn declarations) s c 2
      fun env => (Expr.literal kind s).value env)
    (widened : kind.category = .int → Cpp.Denotes (isFloatingIn declarations) (s ++ ".0") .float 2
      fun env => (Expr.literal kind s).value env)
    (depth : Nat) : Resolves declarations depth (.literal kind s) := by
  have render : ∀ m : Node, m.written = { category := kind.category, value := some s } →
      Template.render m [] (.format "%(value)s") = s :=
    fun m eq => Template.render_value m [] (Node.value_of_written eq)
  have inner : kind.category ≠ .block ∧ kind.category ≠ .function := by
    cases kind <;> exact ⟨nofun, nofun⟩
  have other : kind.category ∉ [.var, .get, .assigns] := by cases kind <;> decide
  refine resolves_leaf { category := kind.category, value := some s } rule (.format "%(value)s")
    real rfl inner ?_ (fun _ _ eq => builtinOf?_of_written eq rfl other) own (fun s _ _ => ok s)
    ?_ ?_ depth
  case refine_1 =>
    intro t ids id h
    cases h with
    | literal written => exact ⟨rfl, written⟩
  case refine_2 =>
    intro m eq
    rwa [render m eq]
  case refine_3 =>
    intro m eq int
    rw [render m eq]
    exact widened int

/-- A node of an operator, if its rule answers a text that is worth `m` of operands that are
worth `ms`. -/
theorem resolves_operator (c : Category) (es ms : List Expr) (operator : c.isOperator)
    (stands : ∀ {t : Tree} {ids : List NodeId} {id : NodeId}, t.Stands ids id e →
      ∃ below roots, ids = id :: below ∧ id ∉ below ∧ t.StandAll below roots es
        ∧ (t.node id).written = { category := c, children := roots })
    (outcome : ∀ s : Site, s.Renders (isFloatingIn declarations) ms →
      ∃ rule outcome, Rule.ofCategory? c = some rule ∧ rule s = .ok outcome
        ∧ outcome.Renders (isFloatingIn declarations) s m)
    (h : ∀ depth, List.Forall₂ (ResolvesTo declarations depth) es ms) (depth : Nat) :
    ResolvesTo declarations depth e m := by
  intro w ids id standing bound config enough
  obtain ⟨below, roots, rfl, apart, all, written⟩ := stands standing
  obtain ⟨depth, rfl⟩ := Nat.exists_eq_add_one_of_ne_zero (n := depth)
    (Nat.ne_of_gt (Nat.lt_of_lt_of_le (Nat.succ_pos _) enough))
  obtain ⟨found, w₁, run, confined, lengths, renders⟩ :=
    texts_of_resolves (h depth) all
      (fun i mem => bound i (List.mem_cons_of_mem _ mem)) config (Nat.le_of_succ_le_succ enough)
  have lt := bound id List.mem_cons_self
  have same : w₁.tree.node id = w.tree.node id := confined.kept id apart
  have category : (w₁.tree.node id).category = c := by
    rw [same, Node.category_of_written written]
  have children : w₁.tree.children id = roots := by
    rw [Tree.children, same, Node.children_of_written written]
  have site := site_renders (confined.size ▸ lt) children (fun mem => apart (all.mem id mem))
    (category ▸ operator) lengths renders
  obtain ⟨rule, answer, own, ok, effects, c', real, typing, denotes⟩ := outcome _ site
  rw [texts_site (confined.size ▸ lt) (children ▸ lengths)] at denotes
  obtain ⟨w', m, run', -, confined', typing', written'⟩ :=
    resolveWithin_of_outcome lt written rfl
      ⟨ne_of_isOperator operator (by decide), ne_of_isOperator operator (by decide)⟩ run confined
      apart (fun _ _ eq => builtinOf?_of_written eq rfl (not_mem_of_isOperator operator)) own ok
      effects
  refine ⟨_, w', run', confined', renders_of_typing real (typing'.trans typing) (denotes m) ?_⟩
  have category' := Node.category_of_written written'
  exact fun int => absurd (category'.symm.trans int) (ne_of_isOperator operator (by decide))

theorem resolves_paren (h : ∀ depth, ResolvesTo declarations depth e m) :
    ∀ depth, ResolvesTo declarations depth (.paren e) (.paren m) := by
  refine resolves_operator .paren [e] [m] rfl ?_ ?_ fun depth => .cons (h depth) .nil
  · intro t ids id standing
    cases standing with
    | @paren id child below _ written apart inner =>
      refine ⟨below, [child], rfl, apart, ?_, written⟩
      have one := Tree.StandAll.cons inner .nil fun _ _ => List.not_mem_nil
      rwa [List.append_nil] at one
  · intro s site
    obtain ⟨answer, ok, renders⟩ := Rule.paren_outcome site
    exact ⟨Rule.paren, answer, rfl, ok, renders⟩

theorem resolves_chain {op : ChainOp} {first second : Expr} {more ms : List Expr}
    (outcome : ∀ s : Site, s.Renders (isFloatingIn declarations) ms →
      ∃ rule outcome, Rule.ofCategory? op.category = some rule ∧ rule s = .ok outcome
        ∧ outcome.Renders (isFloatingIn declarations) s m)
    (h : ∀ depth, List.Forall₂ (ResolvesTo declarations depth) (first :: second :: more) ms) :
    ∀ depth, ResolvesTo declarations depth (.chain op first second more) m := by
  have operator := Category.isOperator_of_isChained op.isChained_category
  refine resolves_operator op.category (first :: second :: more) ms operator ?_ outcome h
  intro t ids id standing
  cases standing with
  | chain written apart operands => exact ⟨_, _, rfl, apart, operands, written⟩

/-- Arithmetic is resolved to a text that is worth it. -/
theorem resolves_of_scalar (h : e.Scalar declarations) (canonical : e.Canonical) :
    ∀ depth, Resolves declarations depth e := by
  induction h with
  | name free declared real =>
    cases canonical with
    | name spelled => exact resolves_name free declared real spelled
  | int plain =>
    cases canonical with
    | literal spells =>
      exact resolves_literal rfl rfl rfl (fun _ => rfl) (Cpp.denotes_int spells plain)
        fun _ => Cpp.denotes_tenths spells
  | float =>
    cases canonical with
    | literal spells =>
      exact resolves_literal rfl rfl rfl (fun _ => rfl) (Cpp.denotes_float spells) nofun
  | @paren e _ ih =>
    cases canonical with
    | paren inner => exact resolves_paren (ih inner)
  | @chain op first second more arithmetic _ ih =>
    cases canonical with
    | chain start low _ operands takes =>
      have all : ∀ e ∈ first :: second :: more, e.Canonical :=
        List.forall_mem_cons.mpr ⟨start, operands⟩
      refine resolves_chain (fun s site => Rule.chain_outcome arithmetic site low takes)
        fun depth => List.forall₂_same.mpr fun e mem => ih e mem (all e mem) depth

/-! ## One assignment -/

theorem resolve_target (depth : Nat) {y : String} {target : NodeId} (lt : target < w.tree.size)
    (written : (w.tree.node target).written = { category := .var, name := y })
    (free : Builtin.isReserved y = false) :
    ∃ w', resolveWithin (depth + 1) target w = (.ok y, w') ∧ w.Confined w' [target]
      ∧ (w'.tree.node target).written = { category := .var, name := y } := by
  obtain ⟨typing, ok⟩ : ∃ typing, Rule.var ((w.seed target).site target [])
      = .ok ⟨.format "%(name)s", typing, []⟩ := by
    rw [Rule.var]
    split
    · exact ⟨_, rfl⟩
    · exact ⟨_, rfl⟩
  obtain ⟨w', m, run, eq, confined, -, written'⟩ :=
    resolveWithin_of_outcome lt written rfl ⟨nofun, nofun⟩ rfl ⟨rfl, rfl, fun _ _ => rfl⟩
      List.not_mem_nil (fun _ _ eq => builtinOf?_of_free eq free) rfl ok rfl
  rw [Template.render_name, Node.name_of_written eq] at run
  exact ⟨w', run, confined, written'⟩

theorem pending_record (s : State) (x : String) (d : Datatype) :
    (s.record x d).pending = s.pending := by
  rw [State.record]
  split
  · rfl
  · rfl

/-- The line of an assignment whose right side is resolved to `text`. -/
theorem applyRule_assign {target value : NodeId} {y : String} (text : String) (lt : id < w.tree.size)
    (assign : (w.tree.node id).written = { category := .assign, children := [target, value] })
    (destination : (w.tree.node target).written = { category := .var, name := y })
    (free : Builtin.isReserved y = false) (apart : id ≠ target) :
    ∃ w', applyRule id [y, text] w = (.ok (y ++ " = " ++ text ++ " ;"), w')
      ∧ w'.state.pending = w.state.pending := by
  let left : Operand := ⟨target, (w.seed id).tree.node target, y⟩
  let right : Operand := ⟨value, (w.seed id).tree.node value, text⟩
  let site := (w.seed id).site id [y, text]
  let outcome : Outcome :=
    ⟨.format "%(0)s = %(1)s ;", site.seed, Rule.binding left right.datatype⟩
  have seeded : ((w.seed id).tree.node id).written
      = { category := .assign, children := [target, value] } :=
    (congrArg Node.written (node_seed lt)).trans assign
  have children : (w.seed id).tree.children id = [target, value] :=
    Node.children_of_written seeded
  have operands : site.operands = [left, right] := by
    show operandsAt (w.seed id).tree ((w.seed id).tree.children id) [y, text] = _
    rw [children]
    rfl
  have kept : (w.seed id).tree.node target = w.tree.node target :=
    Tree.node_modify_of_ne apart.symm _
  have name : left.node.name = y := by
    rw [← kept] at destination
    exact Node.name_of_written destination
  have allowed : Rule.checkDestinations [left] = .ok ⟨⟩ := by
    have none : Rule.reservedDestination? [left] = none := by
      simp [Rule.reservedDestination?, name, free]
    rw [Rule.checkDestinations, none]
  have ok : Rule.assign site = .ok outcome := by
    rw [Rule.assign, operands]
    dsimp only
    rw [allowed]
    rfl
  have select : Rule.select (w.seed id).tree ((w.seed id).tree.node id) = Rule.assign :=
    Rule.select_eq (builtinOf?_of_written seeded rfl (by simp))
      (by rw [Node.category_of_written seeded]; rfl)
  refine ⟨(w.seed id).commit id [y, text] outcome, ?_, ?_⟩
  case refine_1 =>
    unfold applyRule
    dsimp only
    rw [select, ok]
    dsimp only
    rw [Workspace.textOf, Template.render_assign]
  case refine_2 =>
    show ((Rule.binding left right.datatype).foldl (Workspace.perform id)
      (w.seed id)).state.pending = _
    rw [Rule.binding]
    split
    · exact pending_record _ _ _
    · rfl

/-- An assignment is resolved to one line, whose right side is worth the value assigned. -/
theorem resolve_assign {y : String} {root target value : NodeId} {ids : List NodeId}
    (h : w.tree.AssignsTo y e root id target value ids) (free : Builtin.isReserved y = false)
    (resolves : ResolvesTo declarations w.tree.size e m)
    (config : w.state.config.declarations = declarations) :
    ∃ text w', resolve id w = (.ok (y ++ " = " ++ text ++ " ;"), w')
      ∧ w'.state.pending = w.state.pending
      ∧ Cpp.Denotes (isFloatingIn declarations) text .int 0 fun env => m.value env := by
  obtain ⟨lt, ltTarget, ltIds⟩ := h.bound
  obtain ⟨apart, apartTarget, ne⟩ := h.apart
  obtain ⟨depth, size⟩ := Nat.exists_eq_add_one_of_ne_zero (Nat.ne_of_gt (Nat.zero_lt_of_lt lt))
  obtain ⟨w₁, run₁, confined₁, written₁⟩ := resolve_target depth ltTarget h.destination free
  have stands : w₁.tree.Stands ids value e := h.stands.congr fun i mem => by
    have other : i ≠ target := by
      rintro rfl
      exact apartTarget mem
    rw [confined₁.kept i fun mem => other (List.mem_singleton.mp mem)]
  obtain ⟨text, w₂, run₂, confined₂, renders⟩ := resolves w₁ ids value stands
    (fun i mem => confined₁.size ▸ ltIds i mem) (by rw [confined₁.state, config]) h.length
  have confined := confined₁.trans confined₂
  have same : w₂.tree.node id = w.tree.node id := by
    refine confined.kept id fun mem => ?_
    rcases List.mem_append.mp mem with mem | mem
    · exact ne (List.mem_singleton.mp mem)
    · exact apart mem
  have written₂ : (w₂.tree.node target).written = { category := .var, name := y } := by
    rw [confined₂.kept target apartTarget]
    exact written₁
  obtain ⟨w₃, applied, pending⟩ := applyRule_assign text (confined.size ▸ lt)
    (by rw [same]; exact h.assign) written₂ free ne
  refine ⟨text, w₃, ?_, ?_, ?_⟩
  case refine_1 =>
    have category := Node.category_of_written h.assign
    have children : w.tree.children id = [target, value] := Node.children_of_written h.assign
    rw [← size] at run₁
    rw [resolve, resolveWithin_eq_node _ (by rw [category]; exact ⟨nofun, nofun⟩), node, children,
      texts, run₁]
    dsimp only
    rw [texts, run₂]
    dsimp only
    rw [texts]
    exact applied
  case refine_2 => rw [pending, confined.state]
  case refine_3 => exact (renders.text.mono (Nat.zero_le _)).withClass nofun

/-- The root of such a tree has this one line. -/
theorem rootLines_assign {y : String} {root target value : NodeId} {ids : List NodeId}
    (h : w.tree.AssignsTo y e root id target value ids) (free : Builtin.isReserved y = false)
    (resolves : ResolvesTo declarations w.tree.size e m)
    (config : w.state.config.declarations = declarations) (pending : w.state.pending = [])
    (name : isName y) :
    ∃ text w', rootLines w = ([y ++ " = " ++ text ++ " ;"], w')
      ∧ Cpp.Denotes (isFloatingIn declarations) text .int 0 fun env => m.value env := by
  have start : ({ w with state := w.state.withPending [] } : Workspace) = w := by
    rw [State.withPending, ← pending]
  obtain ⟨text, w', run, pending', denotes⟩ := resolve_assign h free resolves config
  have below : resolveWithin (w.tree.size + 1) id w = (.ok (y ++ " = " ++ text ++ " ;"), w') := run
  have block : (w.tree.node root).category = .block := Node.category_of_written h.block
  have children : w.tree.children root = [id] := Node.children_of_written h.block
  have statement : statementLines (resolveWithin (w.tree.size + 1)) id w
      = ([y ++ " = " ++ text ++ " ;"], { w' with state := w'.state.withPending [] }) := by
    unfold statementLines
    dsimp only
    rw [start, below, pending]
    dsimp only
    rw [pending', pending, lines_assign name denotes]
    rfl
  refine ⟨text, { w' with state := w'.state.withPending [] }, ?_, denotes⟩
  rw [rootLines, h.top]
  dsimp only
  rw [block, children]
  dsimp only
  rw [blockLines, statement]
  rfl

end Resolving

/-! ## Scripts -/

/-- What a source is translated to, if it is read and the configuration is valid. -/
theorem translateWith_of_parse {source : String} {p : Program} {config : Config}
    (parses : Program.parse source = .ok p) (valid : config.validate = .ok config) :
    translateWith source config
      = .ok (.ofState (Resolving.rootLines ⟨Tree.ofProgram p, .ofConfig config⟩).1
          (Resolving.rootLines ⟨Tree.ofProgram p, .ofConfig config⟩).2.state) := by
  rw [translateWith, Tree.parse, parses]
  dsimp only
  rw [Translator.withConfig, valid]
  rfl

/-- An assignment of an expression that resolves to the worth of `m` is one line, whose right
side reads as C++ with the value of `m`. -/
theorem translateWith_of_resolves {source y : String} {e m : Expr} {config : Config}
    (parses : Program.parse source = .ok [.statement (.assign (.variable y) e)])
    (free : Builtin.isReserved y = false) (numbers : Tree.Numbers e)
    (resolves : ∀ depth, Resolving.ResolvesTo config.declarations depth e m)
    (valid : config.validate = .ok config) :
    ∃ translation text tree, translateWith source config = .ok translation
      ∧ translation.statements = [y ++ " = " ++ text ++ " ;"] ∧ Cpp.read? text = some tree
      ∧ ∀ env, tree.value (isFloatingIn config.declarations) env = m.value env := by
  obtain ⟨name, -⟩ : isName y ∧ e.Canonical := Program.accepted_of_parse parses _ List.mem_cons_self
  obtain ⟨root, statement, target, value, ids, assigns⟩ := Tree.assignsTo_ofProgram y numbers
  generalize made : Tree.ofProgram [.statement (.assign (.variable y) e)] = t at assigns
  let w : Workspace := ⟨t, .ofConfig config⟩
  obtain ⟨text, w', lines, denotes⟩ :=
    Resolving.rootLines_assign (w := w) assigns free (resolves _) rfl rfl name
  obtain ⟨c, spelled, canonical, -, -, worth⟩ := denotes
  refine ⟨.ofState [y ++ " = " ++ text ++ " ;"] w'.state, text, c, ?_, rfl,
    Cpp.read?_spelled canonical spelled, worth⟩
  rw [translateWith_of_parse parses valid, made, lines]

/-- Translating an assignment of scalar arithmetic emits one assignment, and its right side,
read as C++, is worth what the expression is. -/
theorem value_of_translateWith {source y : String} {e : Expr} {config : Config}
    (parses : Program.parse source = .ok [.statement (.assign (.variable y) e)])
    (free : Builtin.isReserved y = false) (scalar : e.Scalar config.declarations)
    (valid : config.validate = .ok config) :
    ∃ translation text tree, translateWith source config = .ok translation
      ∧ translation.statements = [y ++ " = " ++ text ++ " ;"] ∧ Cpp.read? text = some tree
      ∧ ∀ env, tree.value (isFloatingIn config.declarations) env = e.value env := by
  have accepted := Program.accepted_of_parse parses
  obtain ⟨name, canonical⟩ : isName y ∧ e.Canonical := accepted _ List.mem_cons_self
  obtain ⟨root, statement, target, value, ids, assigns⟩ :=
    Tree.assignsTo_ofProgram y (Tree.numbers_of_scalar scalar)
  generalize made : Tree.ofProgram [.statement (.assign (.variable y) e)] = t at assigns
  let w : Workspace := ⟨t, .ofConfig config⟩
  have resolves : Resolving.Resolves config.declarations w.tree.size e :=
    Resolving.resolves_of_scalar scalar canonical _
  obtain ⟨text, w', lines, denotes⟩ :=
    Resolving.rootLines_assign (w := w) assigns free resolves rfl rfl name
  obtain ⟨c, spelled, canonical', -, -, worth⟩ := denotes
  refine ⟨.ofState [y ++ " = " ++ text ++ " ;"] w'.state, text, c, ?_, rfl,
    Cpp.read?_spelled canonical' spelled, worth⟩
  rw [translateWith, Tree.parse, parses]
  dsimp only
  rw [made, Translator.withConfig, valid]
  show Except.ok ((Translator.mk (.ofConfig config)).translate t).1 = _
  rw [Translator.translate]
  show Except.ok (Translation.ofState (Resolving.rootLines w).1 (Resolving.rootLines w).2.state) = _
  rw [lines]

/-- A quotient of integer variables and one of integer literals. -/
theorem value_of_translateWith_integers : ∃ e translation text tree,
    Program.parse "y = a/b - 7/2" = .ok [.statement (.assign (.variable "y") e)]
      ∧ translateWith "y = a/b - 7/2"
        { declarations := ⟨[("a", .scalar .int), ("b", .scalar .int)]⟩ } = .ok translation
      ∧ translation.statements = ["y" ++ " = " ++ text ++ " ;"] ∧ Cpp.read? text = some tree
      ∧ ∀ env, tree.value
          (isFloatingIn ⟨[("a", .scalar .int), ("b", .scalar .int)]⟩) env = e.value env := by
  let config : Config := { declarations := ⟨[("a", .scalar .int), ("b", .scalar .int)]⟩ }
  let names : Expr := .chain .rightDiv (.name "a") (.name "b") []
  let literals : Expr := .chain .rightDiv (.literal .int "7") (.literal .int "2") []
  have parses : Program.parse "y = a/b - 7/2"
      = .ok [.statement (.assign (.variable "y") (.chain .sub names literals []))] := by cbv
  have a : Expr.Scalar config.declarations (.name "a") := .name (c := .int) (by decide) rfl rfl
  have b : Expr.Scalar config.declarations (.name "b") := .name (c := .int) (by decide) rfl rfl
  have first : Expr.Scalar config.declarations names := .chain rfl (by simp [a, b])
  have second : Expr.Scalar config.declarations literals :=
    .chain rfl (by simp [Expr.Scalar.int, Token.hasLeadingZero])
  have scalar : Expr.Scalar config.declarations (.chain .sub names literals []) :=
    .chain rfl (by simp [first, second])
  obtain ⟨translation, text, tree, found⟩ :=
    value_of_translateWith parses (by decide) scalar rfl
  exact ⟨_, translation, text, tree, parses, found⟩

example : (translateWith "y = a/b - 7/2"
    { declarations := ⟨[("a", .scalar .int), ("b", .scalar .int)]⟩ }).toOption.map (·.statements)
      = some ["y = a*1.0/b-7/2.0 ;"] := by
  decide +kernel

end MatrixScript
