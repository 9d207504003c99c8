/-
# `Proofs.Tree.OfProgram` — the tree of a program is well formed

Numbering keeps the growing tree a forest in which every node has the shape of
its category (`Growing`).  Each function that appends nodes has one lemma: it
leaves the roots that were there and puts its own in front of them, with the
categories that its argument calls for.  Shapes follow from the grammar, since
whatever the parser reads is canonical or a command.  At the end one root is
left, the block of the program (`wellFormed_ofProgram`).
-/
import MatrixScript.Proofs.Program.Accepted
import MatrixScript.Proofs.Tree.Forest
import MatrixScript.Tree.OfProgram

namespace MatrixScript

/-! ## Categories of what is numbered -/

/-- Category of the node of an expression. -/
def Expr.category : Expr → Category
  | .name _ => .var
  | .call _ _ => .get
  | .cellCall _ _ => .cget
  | .literal kind _ => kind.category
  | .last => .last
  | .all => .all
  | .paren _ => .paren
  | .matrix _ => .matrix
  | .cell _ => .cell
  | .sign op _ => op.category
  | .transpose op _ => op.category
  | .chain op _ _ _ => op.category
  | .compare op _ _ => op.category
  | .range _ _ | .stepped _ _ _ => .range

/-- Category of the node of a destination. -/
def Target.category : Target → Category
  | .variable _ => .var
  | .element _ _ => .set

/-- Category of the node of a statement. -/
def Statement.category : Statement → Category
  | .expression _ | .command _ _ => .statement
  | .assign _ _ => .assign
  | .assigns _ _ => .assigns
  | .ret => .ret
  | .brk => .brk

/-- Category of the node of what stands at the top level. -/
def Item.category : Item → Category
  | .statement s => s.category
  | .function _ => .function

theorem Expr.Canonical.isExpression {e : Expr} (h : e.Canonical) : e.category.isExpression := by
  cases h with
  | @literal kind => cases kind <;> rfl
  | @sign op => cases op <;> rfl
  | @transpose op => cases op <;> rfl
  | @chain op => cases op <;> rfl
  | @compare op => cases op <;> rfl
  | _ => rfl

theorem Parser.Argument.isArgument {e : Expr} (h : Parser.Argument e) : e.category.isArgument := by
  by_cases eq : e = .all
  · rw [eq]
    rfl
  · rw [Category.isArgument, (h eq).isExpression]
    rfl

theorem Parser.argument_of_canonical {e : Expr} (h : e.Canonical) : Parser.Argument e := fun _ => h

theorem Target.isDestination (t : Target) : t.category.isDestination := by cases t <;> rfl

theorem Statement.isStatement (s : Statement) : s.category.isStatement := by cases s <;> rfl

theorem Item.isStatement (i : Item) : i.category.isStatement := by
  cases i with
  | statement s => exact s.isStatement
  | function f => rfl

/-- Only a chain of the operator has its category. -/
theorem Expr.category_ne {op : ChainOp} {e : Expr} (ne : e.chainOp? ≠ some op) :
    e.category ≠ op.category := by
  cases e with
  | chain op' first second more =>
    intro eq
    have same : op' = op := by
      cases op' <;> cases op <;> first | rfl | cases eq
    exact ne (congrArg some same)
  | literal kind => cases kind <;> cases op <;> nofun
  | sign op' => cases op' <;> cases op <;> nofun
  | transpose op' => cases op' <;> cases op <;> nofun
  | compare op' => cases op' <;> cases op <;> nofun
  | _ => cases op <;> nofun

theorem spells_category {kind : LiteralKind} {s : String} (h : kind.spells s) :
    kind.category.spells s := by
  cases kind with
  | str => rfl
  | _ => exact h

theorem ne_empty_of_isName {x : String} (h : isName x) : x ≠ "" := by
  rintro rfl
  cases h

namespace Tree

variable {t : Tree}

/-! ## Growing trees -/

/-- A forest with these roots, of these categories, and every node in shape. -/
structure Growing (t : Tree) (roots : List (NodeId × Category)) : Prop where
  forest : t.Forest (roots.map Prod.fst)
  category : ∀ r ∈ roots, t.category r.1 = r.2
  shaped : ∀ id < t.size, t.Shaped id

theorem Growing.perm {roots roots' : List (NodeId × Category)} (h : t.Growing roots)
    (p : roots.Perm roots') : t.Growing roots' where
  forest := h.forest.perm (p.map _)
  category r mem := h.category r (p.mem_iff.mpr mem)
  shaped := h.shaped

theorem growing_empty : empty.Growing [] where
  forest := forest_empty
  category _ mem := absurd mem List.not_mem_nil
  shaped _ lt := absurd lt (Nat.not_lt_zero _)

/-- The node has the same text and the same children in both trees. -/
structure SameText (t t' : Tree) (id : NodeId) : Prop where
  category : t'.category id = t.category id
  name : (t'.node id).name = (t.node id).name
  value : (t'.node id).value = (t.node id).value
  children : t'.children id = t.children id

theorem Shaped.congr {t' : Tree} {id : NodeId} (h : t.Shaped id) (same : SameText t t' id)
    (categories : ∀ child ∈ t.children id, t'.category child = t.category child) :
    t'.Shaped id where
  children := by
    rw [same.category, same.children, List.map_congr_left categories]
    exact h.children
  value := by
    rw [same.category, same.value]
    exact h.value
  spelled := by
    rw [same.category, same.value]
    exact h.spelled
  name := by
    rw [same.category, same.name]
    exact h.name

/-- A new node leaves the text of the others. -/
theorem sameText_insert {n : Node} (bound : ∀ child ∈ n.children, child < t.size) {id : NodeId}
    (ne : id ≠ t.size) : SameText t (t.insert n) id := by
  by_cases mem : id ∈ n.children
  · have eq := node_insert_child bound mem
    constructor <;> simp only [Tree.category, Tree.children, eq]
  · have eq := node_insert_of_ne ne mem
    constructor <;> simp only [Tree.category, Tree.children, eq]

theorem Growing.insert {n : Node} {made roots : List (NodeId × Category)}
    (h : t.Growing (made ++ roots)) (loose : n.parent = none)
    (children : n.children = made.map Prod.fst) (admits : n.category.admits (made.map Prod.snd))
    (value : n.value.isSome = n.category.isLiteral)
    (spelled : ∀ s, n.value = some s → n.category.spells s)
    (name : (n.name ≠ "") ↔ n.category.isNamed) :
    (t.insert n).Growing ((t.size, n.category) :: roots) := by
  have forest : t.Forest (n.children ++ roots.map Prod.fst) := by
    rw [children, ← List.map_append]
    exact h.forest
  have bound : ∀ child ∈ n.children, child < t.size :=
    fun child mem => forest.root child (List.mem_append_left _ mem)
  have same : ∀ id < t.size, SameText t (t.insert n) id :=
    fun id lt => sameText_insert bound (Nat.ne_of_lt lt)
  have new := node_insert_new bound
  refine ⟨forest.insert loose, ?_, ?_⟩
  case refine_1 =>
    intro r mem
    rcases List.mem_cons.mp mem with rfl | mem
    · exact congrArg Node.category new
    · have root := forest.root r.1 (List.mem_append_right _ (List.mem_map_of_mem mem))
      exact (same r.1 root).category.trans (h.category r (List.mem_append_right _ mem))
  case refine_2 =>
    intro id lt
    rw [size_insert] at lt
    rcases Nat.lt_or_eq_of_le (Nat.le_of_lt_succ lt) with lt | rfl
    · refine (h.shaped id lt).congr (same id lt) fun child mem => ?_
      exact (same child (forest.bound id child mem)).category
    · have categories : n.children.map (t.insert n).category = made.map Prod.snd := by
        rw [children, List.map_map]
        refine List.map_congr_left fun r mem => ?_
        have lt : r.1 < t.size := bound r.1 (children ▸ List.mem_map_of_mem mem)
        exact (same r.1 lt).category.trans (h.category r (List.mem_append_left _ mem))
      constructor
      · rw [Tree.category, Tree.children, new, categories]
        exact admits
      · rw [Tree.category, new]
        exact value
      · rw [Tree.category, new]
        exact spelled
      · rw [Tree.category, new]
        exact name

/-- Adoption leaves the text of every node but the parent. -/
theorem sameText_adopt {parent child id : NodeId} (lt : child < t.size) (ne : parent ≠ child)
    (other : id ≠ parent) : SameText t (t.adopt parent child) id := by
  by_cases eq : id = child
  · subst eq
    have eq := node_adopt_child lt ne
    constructor <;> simp only [Tree.category, Tree.children, eq]
  · have eq := node_adopt_of_ne (t := t) other eq
    constructor <;> simp only [Tree.category, Tree.children, eq]

theorem Growing.adopt {parent child : NodeId} {c d : Category} {roots : List (NodeId × Category)}
    (h : t.Growing ((parent, c) :: (child, d) :: roots))
    (more : ∀ cs, c.admits cs → c.admits (cs ++ [d])) :
    (t.adopt parent child).Growing ((parent, c) :: roots) := by
  have ne : parent ≠ child := by
    rintro rfl
    exact absurd List.mem_cons_self (List.nodup_cons.mp h.forest.nodup).1
  have lt : parent < t.size := h.forest.root parent List.mem_cons_self
  have lt' : child < t.size := h.forest.root child (List.mem_cons_of_mem _ List.mem_cons_self)
  have self := node_adopt_self lt ne
  have category : ∀ id, (t.adopt parent child).category id = t.category id := by
    intro id
    by_cases eq : id = parent
    · rw [eq]
      simp only [Tree.category, self]
    · exact (sameText_adopt lt' ne eq).category
  have categoryParent : t.category parent = c := h.category (parent, c) List.mem_cons_self
  have categoryChild : t.category child = d :=
    h.category (child, d) (List.mem_cons_of_mem _ List.mem_cons_self)
  refine ⟨h.forest.adopt, fun r mem => ?_, fun id lt => ?_⟩
  · rw [category]
    rcases List.mem_cons.mp mem with rfl | mem
    · exact categoryParent
    · exact h.category r (List.mem_cons_of_mem _ (List.mem_cons_of_mem _ mem))
  · rw [size_adopt] at lt
    by_cases eq : id = parent
    · subst eq
      have shaped := h.shaped id lt
      constructor
      · rw [category, Tree.children, self, funext category, List.map_append, categoryParent]
        have admits := more _ (categoryParent ▸ shaped.children)
        simpa [categoryChild] using admits
      · rw [category, self]
        exact shaped.value
      · rw [category, self]
        exact shaped.spelled
      · rw [category, self]
        exact shaped.name
    · exact (h.shaped id lt).congr (sameText_adopt lt' ne eq) fun child _ => category child

/-! ## Appending one node -/

theorem Growing.node {c : Category} {x : String} {ids : List NodeId} {cs : List Category}
    {made roots : List (NodeId × Category)} (h : t.Growing (made ++ roots))
    (hids : made.map Prod.fst = ids) (hcs : made.map Prod.snd = cs) (admits : c.admits cs)
    (value : c.isLiteral = false) (name : (x ≠ "") ↔ c.isNamed) :
    (t.push c x ids).Growing ((t.size, c) :: roots) := by
  subst hids hcs
  exact h.insert rfl rfl admits value.symm nofun name

theorem Growing.literal {c : Category} {s : String} {roots : List (NodeId × Category)}
    (h : t.Growing roots) (value : c.isLiteral) (spelled : c.spells s) :
    (t.pushLiteral c s).Growing ((t.size, c) :: roots) := by
  have leaf : c.admits [] := by
    cases c with
    | int | float | imag | str => rfl
    | _ => cases value
  have nameless : ¬c.isNamed := by
    cases c with
    | int | float | imag | str => nofun
    | _ => cases value
  have name : ("" ≠ "") ↔ c.isNamed :=
    ⟨fun ne => absurd rfl ne, fun named => absurd named nameless⟩
  have none : t.Growing (([] : List (NodeId × Category)) ++ roots) := h
  refine none.insert rfl rfl leaf value.symm (fun s' eq => ?_) name
  obtain rfl := Option.some.inj eq
  exact spelled

namespace Build

/-- Appends a root of this category. -/
def Makes (b : Build NodeId) (c : Category) : Prop :=
  ∀ t roots, t.Growing roots → (b t).2.Growing (((b t).1, c) :: roots)

/-- Appends roots of these categories. -/
def MakesAll (b : Build (List NodeId)) (cs : List Category) : Prop :=
  ∀ t roots, t.Growing roots →
    ∃ made, made.map Prod.fst = (b t).1 ∧ made.map Prod.snd = cs ∧ (b t).2.Growing (made ++ roots)

theorem Makes.cons {b : Build NodeId} {c : Category} {rest : Build (List NodeId)}
    {cs : List Category} (h : Makes b c) (hs : MakesAll rest cs) :
    MakesAll (do let id ← b; return id :: (← rest)) (c :: cs) := by
  intro t roots growing
  obtain ⟨made, hids, hcs, growing'⟩ := hs _ _ (h t roots growing)
  refine ⟨((b t).1, c) :: made, ?_, ?_, growing'.perm List.perm_middle⟩
  · show (b t).1 :: made.map Prod.fst = _
    rw [hids]
    rfl
  · show c :: made.map Prod.snd = _
    rw [hcs]

theorem makesAll_nil : MakesAll (return []) [] := fun _ _ growing => ⟨[], rfl, rfl, growing⟩

theorem MakesAll.concat {b : Build (List NodeId)} {cs : List Category} {last : Build NodeId}
    {c : Category} (hs : MakesAll b cs) (h : Makes last c) :
    MakesAll (do let ids ← b; return ids ++ [← last]) (cs ++ [c]) := by
  intro t roots growing
  obtain ⟨made, hids, hcs, growing'⟩ := hs t roots growing
  have grown := h _ _ growing'
  refine ⟨made ++ [((last (b t).2).1, c)], ?_, ?_, grown.perm ?_⟩
  · rw [List.map_append, hids]
    rfl
  · rw [List.map_append, hcs]
    rfl
  · exact (List.perm_append_singleton _ made).symm.append_right roots

theorem makesAll_each {α : Type} {one : α → Build NodeId} {category : α → Category} :
    ∀ {as : List α}, (∀ a ∈ as, Makes (one a) (category a)) →
      MakesAll (each one as) (as.map category)
  | [], _ => makesAll_nil
  | a :: as, h => by
    obtain ⟨first, rest⟩ := List.forall_mem_cons.mp h
    exact first.cons (makesAll_each rest)

/-- A node around all that was made. -/
theorem MakesAll.node {b : Build (List NodeId)} {c : Category} {x : String} {cs : List Category}
    (h : MakesAll b cs) (admits : c.admits cs) (value : c.isLiteral = false)
    (name : (x ≠ "") ↔ c.isNamed) : Makes (do Build.node c x (← b)) c := by
  intro t roots growing
  obtain ⟨made, hids, hcs, growing'⟩ := h t roots growing
  exact growing'.node hids hcs admits value name

theorem makes_named {c : Category} (hc : c.isNamed) (leaf : c.admits []) {x : String}
    (hx : isName x) : Makes (node c x []) c := by
  have value : c.isLiteral = false := by
    cases c with
    | var | get | set | cget | function => rfl
    | _ => cases hc
  exact makesAll_nil.node leaf value ⟨fun _ => hc, fun _ => ne_empty_of_isName hx⟩

theorem makes_literal {c : Category} {s : String} (hc : c.isLiteral) (hs : c.spells s) :
    Makes (literal c s) c :=
  fun _ _ growing => growing.literal hc hs

/-- A node without a name, with children to follow. -/
theorem MakesAll.plain {b : Build (List NodeId)} {cs : List Category} (h : MakesAll b cs)
    (c : Category) (admits : c.admits cs) (value : c.isLiteral = false)
    (nameless : c.isNamed = false) : Makes (do Build.node c "" (← b)) c := by
  refine h.node admits value ⟨fun ne => absurd rfl ne, fun named => ?_⟩
  rw [nameless] at named
  cases named

/-- A node of an operator, with its operands to follow. -/
theorem MakesAll.operator {b : Build (List NodeId)} {c : Category} {cs : List Category}
    (h : MakesAll b cs) (operator : c.isOperator) (admits : c.admits cs) :
    Makes (do Build.node c "" (← b)) c := by
  obtain ⟨value, nameless⟩ := Category.plain_of_isOperator operator
  exact h.plain c admits value nameless

/-- A node around its only operand. -/
theorem Makes.unary {b : Build NodeId} {c d : Category} (h : Makes b d) (unary : c.isUnary)
    (operand : d.isExpression) : Makes (do Build.node c "" [← b]) c :=
  (h.cons makesAll_nil).operator (Category.isOperator_of_isUnary unary)
    (Category.admits_unary unary operand)

theorem growing_adoptAll {parent : NodeId} {c : Category} {made roots : List (NodeId × Category)}
    (more : ∀ r ∈ made, ∀ cs, c.admits cs → c.admits (cs ++ [r.2])) :
    ∀ {t : Tree}, t.Growing ((parent, c) :: (made ++ roots)) →
      (adoptAll parent (made.map Prod.fst) t).2.Growing ((parent, c) :: roots) := by
  induction made with
  | nil => exact fun growing => growing
  | cons r made ih =>
    obtain ⟨first, rest⟩ := List.forall_mem_cons.mp more
    intro t growing
    exact ih rest (growing.adopt first)

/-- A call: the node first, then its arguments. -/
theorem makes_call {c : Category} (hc : c.isCall) {f : String} (hf : isName f)
    {b : Build (List NodeId)} {cs : List Category} (h : MakesAll b cs)
    (arguments : ∀ d ∈ cs, d.isArgument) :
    Makes (do
      let id ← node c f []
      adoptAll id (← b)
      return id) c := by
  intro t roots growing
  have named : c.isNamed := by
    cases c with
    | get | set | cget => rfl
    | _ => cases hc
  have leaf : c.admits [] := by
    rw [Category.admits_call hc]
    rfl
  obtain ⟨made, hids, hcs, growing'⟩ := h _ _ (makes_named named leaf hf t roots growing)
  have more : ∀ r ∈ made, ∀ cs, c.admits cs → c.admits (cs ++ [r.2]) := by
    intro r mem cs admits
    refine Category.admits_call_concat hc (arguments r.2 ?_) admits
    rw [← hcs]
    exact List.mem_map_of_mem mem
  have adopted := growing_adoptAll more (growing'.perm List.perm_middle)
  rw [hids] at adopted
  exact adopted

/-- Rows gather what was made for their elements. -/
theorem growing_rows {made : List (List (NodeId × Category))} {roots : List (NodeId × Category)}
    (admits : ∀ row ∈ made, Category.row.admits (row.map Prod.snd)) :
    ∀ {t : Tree}, t.Growing (made.flatten ++ roots) →
      ∃ rows, rows.map Prod.fst = (each (node .row "") (made.map (·.map Prod.fst)) t).1
        ∧ rows.map Prod.snd = made.map (fun _ => .row)
        ∧ (each (node .row "") (made.map (·.map Prod.fst)) t).2.Growing (rows ++ roots) := by
  induction made generalizing roots with
  | nil => exact fun growing => ⟨[], rfl, rfl, growing⟩
  | cons row made ih =>
    obtain ⟨first, rest⟩ := List.forall_mem_cons.mp admits
    intro t growing
    rw [List.flatten_cons, List.append_assoc] at growing
    have gathered := growing.node (x := "") rfl rfl first rfl ⟨fun ne => absurd rfl ne, nofun⟩
    obtain ⟨rows, hids, hcs, growing'⟩ := ih rest (gathered.perm List.perm_middle.symm)
    refine ⟨(t.size, .row) :: rows, ?_, ?_, growing'.perm List.perm_middle⟩
    · show t.size :: rows.map Prod.fst = _
      rw [hids]
      rfl
    · show Category.row :: rows.map Prod.snd = _
      rw [hcs]
      rfl

theorem isArgument_of_mem {es : List Expr} (h : ∀ e ∈ es, Parser.Argument e) :
    ∀ c ∈ es.map Expr.category, c.isArgument := by
  intro c mem
  obtain ⟨e, he, rfl⟩ := List.mem_map.mp mem
  exact (h e he).isArgument

theorem all_isExpression {es : List Expr} (canonical : ∀ e ∈ es, e.Canonical) :
    (es.map Expr.category).all Category.isExpression := by
  rw [List.all_map, List.all_eq_true]
  exact fun e mem => (canonical e mem).isExpression

theorem row_admits {row : List Expr} (filled : row ≠ []) (canonical : ∀ e ∈ row, e.Canonical) :
    Category.row.admits (row.map Expr.category) := by
  simp [Category.admits, all_isExpression canonical, filled]

/-- Rows of the literal `rows`, made of what `b` makes for their elements. -/
theorem makesAll_rows {rows : List (List Expr)} {b : Build (List (List NodeId))}
    (filled : ∀ row ∈ rows, row ≠ []) (canonical : ∀ row ∈ rows, ∀ e ∈ row, e.Canonical)
    (elements : ∀ t roots, t.Growing roots →
      ∃ made : List (List (NodeId × Category)), made.map (·.map Prod.fst) = (b t).1
        ∧ made.map (·.map Prod.snd) = rows.map (·.map Expr.category)
        ∧ (b t).2.Growing (made.flatten ++ roots)) :
    MakesAll (do each (Build.node .row "") (← b)) (rows.map fun _ => .row) := by
  intro t roots growing
  obtain ⟨made, hids, hcs, growing'⟩ := elements t roots growing
  have admits : ∀ row ∈ made, Category.row.admits (row.map Prod.snd) := by
    intro row mem
    have there : row.map Prod.snd ∈ rows.map (·.map Expr.category) :=
      hcs ▸ List.mem_map_of_mem mem
    obtain ⟨es, hmem, eq⟩ := List.mem_map.mp there
    rw [← eq]
    exact row_admits (filled es hmem) (canonical es hmem)
  obtain ⟨gathered, hids', hcs', growing''⟩ := growing_rows admits growing'
  rw [hids] at hids' growing''
  refine ⟨gathered, hids', hcs'.trans ?_, growing''⟩
  have length := congrArg List.length hcs
  rw [List.length_map, List.length_map] at length
  rw [List.map_const', List.map_const', length]

mutual

theorem makes_expr : ∀ (e : Expr), Parser.Argument e → Makes (expr e) e.category
  | .name x, h => makes_named rfl rfl (Parser.isName_of_canonical (h nofun))
  | .call f arguments, h => by
    cases h nofun with
    | call hf hes =>
      exact makes_call rfl hf (makesAll_exprs arguments hes) (isArgument_of_mem hes)
  | .cellCall f arguments, h => by
    cases h nofun with
    | cellCall hf hes =>
      exact makes_call rfl hf (makesAll_exprs arguments hes) (isArgument_of_mem hes)
  | .literal kind text, h => by
    cases h nofun with
    | literal spelled => exact makes_literal (by cases kind <;> rfl) (spells_category spelled)
  | .last, _ => makesAll_nil.plain .last rfl rfl rfl
  | .all, _ => makesAll_nil.plain .all rfl rfl rfl
  | .paren inner, h => by
    cases h nofun with
    | paren he =>
      exact (makes_expr inner (Parser.argument_of_canonical he)).unary rfl he.isExpression
  | .matrix rows, h => by
    cases h nofun with
    | matrix filled hes =>
      have all := makesAll_rows filled hes fun _ _ growing => growing_rowsOf rows hes growing
      refine all.plain .matrix ?_ rfl rfl
      simp [Category.admits]
  | .cell elements, h => by
    cases h nofun with
    | cell hes =>
      have all := makesAll_exprs elements fun e mem => Parser.argument_of_canonical (hes e mem)
      exact all.plain .cell (all_isExpression hes) rfl rfl
  | .sign op operand, h => by
    cases h nofun with
    | sign he =>
      have one := makes_expr operand (Parser.argument_of_canonical he)
      exact one.unary (by cases op <;> rfl) he.isExpression
  | .transpose op operand, h => by
    cases h nofun with
    | transpose he =>
      have one := makes_expr operand (Parser.argument_of_canonical he)
      exact one.unary (by cases op <;> rfl) he.isExpression
  | .chain op first second more, h => by
    cases h nofun with
    | chain hf _ other hes =>
      obtain ⟨hs, hmore⟩ := List.forall_mem_cons.mp hes
      have two := (makes_expr first (Parser.argument_of_canonical hf)).cons
        ((makes_expr second (Parser.argument_of_canonical hs)).cons makesAll_nil)
      have chained := op.isChained_category
      have start : Makes _ op.category := two.operator (Category.isOperator_of_isChained chained)
        (Category.admits_chained chained (Expr.category_ne other) hf.isExpression hs.isExpression)
      intro t roots growing
      exact growing_operands more hmore chained (start t roots growing)
  | .compare op left right, h => by
    cases h nofun with
    | compare hl _ hr =>
      have second := makes_expr right (Parser.argument_of_canonical hr)
      have first := makes_expr left (Parser.argument_of_canonical hl)
      have both := first.cons (second.cons makesAll_nil)
      have comparison : op.category.isComparison := by cases op <;> rfl
      exact both.operator (Category.isOperator_of_isComparison comparison)
        (Category.admits_comparison comparison hl.isExpression hr.isExpression)
  | .range start stop, h => by
    cases h nofun with
    | range ha _ hb =>
      have second := makes_expr stop (Parser.argument_of_canonical hb)
      have first := makes_expr start (Parser.argument_of_canonical ha)
      have both := first.cons (second.cons makesAll_nil)
      refine both.plain .range ?_ rfl rfl
      simp [Category.admits, ha.isExpression, hb.isExpression]
  | .stepped start step stop, h => by
    cases h nofun with
    | stepped ha _ hb _ hc =>
      have third := makes_expr stop (Parser.argument_of_canonical hc)
      have second := makes_expr step (Parser.argument_of_canonical hb)
      have first := makes_expr start (Parser.argument_of_canonical ha)
      have all := first.cons (second.cons (third.cons makesAll_nil))
      refine all.plain .range ?_ rfl rfl
      simp [Category.admits, ha.isExpression, hb.isExpression, hc.isExpression]

theorem makesAll_exprs : ∀ (es : List Expr), (∀ e ∈ es, Parser.Argument e) →
    MakesAll (exprs es) (es.map Expr.category)
  | [], _ => makesAll_nil
  | e :: es, h => by
    obtain ⟨first, rest⟩ := List.forall_mem_cons.mp h
    exact (makes_expr e first).cons (makesAll_exprs es rest)

theorem growing_rowsOf : ∀ (rows : List (List Expr)), (∀ row ∈ rows, ∀ e ∈ row, e.Canonical) →
    ∀ {t : Tree} {roots : List (NodeId × Category)}, t.Growing roots →
      ∃ made : List (List (NodeId × Category)), made.map (·.map Prod.fst) = (rowsOf rows t).1
        ∧ made.map (·.map Prod.snd) = rows.map (·.map Expr.category)
        ∧ (rowsOf rows t).2.Growing (made.flatten ++ roots)
  | [], _, _, _, growing => ⟨[], rfl, rfl, growing⟩
  | row :: rows, h, t, roots, growing => by
    obtain ⟨first, rest⟩ := List.forall_mem_cons.mp h
    obtain ⟨ids, hids, hcs, growing⟩ :=
      makesAll_exprs row (fun e mem => Parser.argument_of_canonical (first e mem)) t roots growing
    obtain ⟨made, hids', hcs', growing⟩ := growing_rowsOf rows rest growing
    refine ⟨ids :: made, ?_, ?_, growing.perm ?_⟩
    · show ids.map Prod.fst :: made.map (·.map Prod.fst) = _
      rw [hids, hids']
      rfl
    · show ids.map Prod.snd :: made.map (·.map Prod.snd) = _
      rw [hcs, hcs']
      rfl
    · rw [List.flatten_cons, List.append_assoc, ← List.append_assoc, ← List.append_assoc]
      exact List.perm_append_comm.append_right roots

theorem growing_operands : ∀ (es : List Expr), (∀ e ∈ es, e.Canonical) →
    ∀ {c : Category}, c.isChained → ∀ {t : Tree} {parent : NodeId}
      {roots : List (NodeId × Category)}, t.Growing ((parent, c) :: roots) →
      (operands parent es t).2.Growing ((parent, c) :: roots)
  | [], _, _, _, _, _, _, growing => growing
  | e :: es, h, c, hc, t, parent, roots, growing => by
    obtain ⟨first, rest⟩ := List.forall_mem_cons.mp h
    have operand := makes_expr e (Parser.argument_of_canonical first) _ _ growing
    have adopted := (operand.perm (.swap ..)).adopt
      fun cs => Category.admits_chained_concat hc first.isExpression
    exact growing_operands es rest hc adopted

end

/-! ## Statements, functions, programs -/

theorem makes_canonical {e : Expr} (h : e.Canonical) : Makes (expr e) e.category :=
  makes_expr e (Parser.argument_of_canonical h)

theorem makes_target {target : Target} (h : target.Canonical) :
    Makes (Build.target target) target.category := by
  cases target with
  | «variable» x => exact makes_named rfl rfl h
  | element x arguments =>
    exact makes_call rfl h.1 (makesAll_exprs arguments h.2) (isArgument_of_mem h.2)

theorem makes_statement {s : Statement} (h : s.Accepted) :
    Makes (statement s) s.category := by
  cases s with
  | expression e =>
    have canonical : e.Canonical := h
    exact ((makes_canonical canonical).cons makesAll_nil).plain .statement
      (by simp [Category.admits, canonical.isExpression]) rfl rfl
  | assign target value =>
    have canonical : value.Canonical := h.2
    have both := (makes_target h.1).cons ((makes_canonical canonical).cons makesAll_nil)
    exact both.plain .assign
      (by simp [Category.admits, canonical.isExpression, target.isDestination]) rfl rfl
  | assigns targets value =>
    have canonical : value.Canonical := h.2
    have all := (makesAll_each fun target mem => makes_target (h.1 target mem)).concat
      (makes_canonical canonical)
    refine all.plain .assigns ?_ rfl rfl
    simp [canonical.isExpression, Target.isDestination]
  | ret => exact makesAll_nil.plain .ret rfl rfl rfl
  | brk => exact makesAll_nil.plain .brk rfl rfl rfl
  | command name words =>
    have literals : MakesAll (each (literal .str) words) (words.map fun _ => .str) :=
      makesAll_each fun _ _ => makes_literal rfl rfl
    have admits : Category.get.admits (words.map fun _ => .str) := by
      simp [Category.admits, Category.isArgument, Category.isExpression]
    have call : Makes _ .get :=
      literals.node admits rfl ⟨fun _ => rfl, fun _ => ne_empty_of_isName h.1⟩
    exact (call.cons makesAll_nil).plain .statement rfl rfl rfl

theorem makesAll_named {xs : List String} (h : ∀ x ∈ xs, isName x) :
    MakesAll (each named xs) (xs.map fun _ => .var) :=
  makesAll_each fun x mem => makes_named rfl rfl (h x mem)

theorem perm_turned {α : Type} (a b c : α) (rest : List α) :
    (c :: b :: a :: rest).Perm (a :: b :: c :: rest) :=
  (List.reverse_perm [a, b, c]).append_right rest

/-- The names and the body come first, and then the nodes that gather them. -/
theorem makes_function {f : Function} (h : f.Spelled Statement.Accepted) :
    Makes (function f) .function := by
  intro t roots growing
  have nameless : ("" ≠ "") ↔ (false : Bool) = true := by simp
  have vars : ∀ xs : List String, (xs.map fun _ => Category.var).all (· == .var) := by simp
  obtain ⟨outputs, hids, hcs, growing⟩ := makesAll_named h.outputs _ _ growing
  obtain ⟨params, hids', hcs', growing⟩ := makesAll_named h.params _ _ growing
  obtain ⟨body, hids'', hcs'', growing⟩ :=
    makesAll_each (fun s mem => makes_statement (h.body s mem)) _ _ growing
  have atParams := growing.perm (List.perm_append_comm_assoc body params _)
  have gathered := atParams.node (c := .params) hids' hcs' (vars f.params) rfl nameless
  have atOutputs := gathered.perm
    ((List.perm_append_comm_assoc body outputs roots).cons _ |>.trans List.perm_middle.symm)
  have gathered := atOutputs.node (c := .returns) hids hcs (vars f.outputs) rfl nameless
  have atBody := gathered.perm
    ((List.perm_middle.symm.cons _).trans List.perm_middle.symm)
  have gathered := atBody.node (c := .block) hids'' hcs''
    (by simp [Category.admits, Statement.isStatement]) rfl nameless
  have turned := gathered.perm (perm_turned _ _ _ roots)
  have parts : Growing _ ([(_, .params), (_, .returns), (_, .block)] ++ roots) := turned
  exact parts.node (c := .function) (x := f.name) rfl rfl rfl rfl
    ⟨fun _ => rfl, fun _ => ne_empty_of_isName h.name⟩

theorem makes_item {i : Item} (h : i.Spelled Statement.Accepted) : Makes (item i) i.category := by
  cases i with
  | statement s => exact makes_statement h
  | function f => exact makes_function h

theorem makes_program {p : Program} (h : p.Accepted) : Makes (program p) .block := by
  have all := makesAll_each fun i mem => makes_item (h i mem)
  exact all.plain .block (by simp [Category.admits, Item.isStatement]) rfl rfl

end Build

/-! ## The whole tree -/

theorem Growing.wellFormed {root : NodeId} (h : t.Growing [(root, .block)])
    (last : root + 1 = t.size) : (t.withRoot root).WellFormed where
  root := by
    have free := h.forest.free root List.mem_cons_self
    exact ⟨root, rfl, last, h.category _ List.mem_cons_self, free.up, free.loose⟩
  bound := h.forest.bound
  held id lt other := by
    obtain ⟨parent, held⟩ := h.forest.held id lt fun mem => other <| by
      rw [List.mem_singleton.mp mem]
      rfl
    exact ⟨parent, held.bound, held.up, held.once, held.only⟩
  grounded top htop id lt ne := by
    obtain rfl : root = top := Option.some.inj htop
    obtain ⟨top, mem, n, climbs⟩ := h.forest.grounded id lt
    obtain rfl : top = root := List.mem_singleton.mp mem
    have climbs' : (t.withRoot top).Climbs n id top := climbs.mono fun _ _ up => up
    exact mem_ancestors climbs' (h.forest.free top mem).up (h.forest.root top mem) ne
  shaped id lt := by
    have shaped := h.shaped id lt
    exact ⟨shaped.children, shaped.value, shaped.spelled, shaped.name⟩

theorem wellFormed_ofProgram {p : Program} (h : p.Accepted) : (ofProgram p).WellFormed :=
  (Build.makes_program h empty [] growing_empty).wellFormed (size_insert ..).symm

/-- What the parser gives is the tree of a program that it accepts. -/
theorem exists_program_of_parse {source : String} {t : Tree} (h : parse source = .ok t) :
    ∃ p : Program, p.Accepted ∧ t = ofProgram p := by
  unfold parse at h
  cases run : Program.parse source with
  | error e => rw [run] at h; cases h
  | ok p =>
    rw [run] at h
    exact ⟨p, Program.accepted_of_parse run, (Except.ok.inj h).symm⟩

theorem wellFormed_of_parsed {source : String} {t : Tree} (parsed : parse source = .ok t) :
    t.WellFormed := by
  obtain ⟨p, accepted, rfl⟩ := exists_program_of_parse parsed
  exact wellFormed_ofProgram accepted

/-- Every tree that the parser gives is well formed. -/
theorem wellFormed_of_parse {source : String} {t : Tree} (h : parse source = .ok t) :
    t.WellFormed := by
  obtain ⟨p, accepted, rfl⟩ := exists_program_of_parse h
  exact wellFormed_ofProgram accepted

/-- A chain and a subscript, both older than some of their children. -/
theorem wellFormed_of_parse_sum : ∃ t, parse "y = a + b(1) + 2\n" = .ok t ∧ t.WellFormed := by
  have parses : ∃ t, parse "y = a + b(1) + 2\n" = .ok t := ⟨_, by cbv⟩
  obtain ⟨t, run⟩ := parses
  exact ⟨t, run, wellFormed_of_parse run⟩

end Tree

end MatrixScript
