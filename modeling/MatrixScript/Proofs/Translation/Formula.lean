/-
# `Proofs.Translation.Formula` — what formulas are resolved to

A formula is resolved whatever the types of its operands are: operators always answer, and
nothing is hoisted.  So what the rules make of the texts of operands is, by induction on the
formula, true of the text of every formula (`Resolving.delivers_of_bears`), and an assignment of
a formula is one line (`translateWith_of_delivers`).
-/
import MatrixScript.Proofs.Rule.Formula
import MatrixScript.Proofs.Translation.Called
import MatrixScript.Proofs.Translation.Pasted
import MatrixScript.Proofs.Tree.Bears

namespace MatrixScript

open Cpp Resolving Workspace

theorem Expr.operands_ne_nil {e : Expr} (operator : e.category.isOperator) : e.operands ≠ [] := by
  cases e with
  | literal kind => cases kind <;> cases operator
  | paren | sign | transpose | chain | compare => nofun
  | _ => cases operator

/-- What the rule of an operator sees of an operand that is the expression `x`. -/
structure Operand.Shows (P : Expr → Typing → String → Prop) (o : Operand) (x : Expr) : Prop where
  category : o.node.category = x.category
  holds : P x o.node.typing o.text

/-- Nodes are filled in, but no definition is hoisted and no node redirected. -/
structure Workspace.Fills (w w' : Workspace) : Prop where
  config : w'.state.config = w.state.config
  pending : w'.state.pending = w.state.pending
  redirect : ∀ i, (w'.tree.node i).redirect = (w.tree.node i).redirect

namespace Workspace

theorem Fills.refl (w : Workspace) : w.Fills w := ⟨rfl, rfl, fun _ => rfl⟩

theorem Fills.trans {w w' w'' : Workspace} (h : w.Fills w') (h' : w'.Fills w'') : w.Fills w'' :=
  ⟨h'.config.trans h.config, h'.pending.trans h.pending,
    fun i => (h'.redirect i).trans (h.redirect i)⟩

theorem fills_modifyNode (w : Workspace) (id : NodeId) {f : Node → Node}
    (kept : ∀ n, (f n).redirect = n.redirect) : w.Fills (w.modifyNode id f) :=
  ⟨rfl, rfl, fun i => Tree.field_modify Node.redirect kept w.tree id i⟩

end Workspace

namespace Resolving

variable {t : Tree} {w w' : Workspace} {id : NodeId} {depth : Nat} {found : List String}
  {config : Config}

/-! ## One node -/

theorem fills_performAll {es : List Effect} (reports : Effect.Reports es) (id : NodeId)
    (w : Workspace) : w.Fills (es.foldl (perform id) w) ∧ (es.foldl (perform id) w).tree = w.tree := by
  induction es generalizing w with
  | nil => exact ⟨.refl w, rfl⟩
  | cons e es ih =>
    obtain ⟨⟨i, p, m, rfl⟩, rest⟩ := List.forall_mem_cons.mp reports
    have reported : w.Fills (w.perform id (.report i p m)) := ⟨rfl, rfl, fun _ => rfl⟩
    obtain ⟨fills, tree⟩ := ih rest (w.perform id (.report i p m))
    exact ⟨reported.trans fills, tree⟩

/-- After its children a node is resolved to what its rule answers; where that is nothing but
reports, little else changes. -/
theorem resolveWithin_of_reports (block : w.tree.category id ≠ .block)
    (function : w.tree.category id ≠ .function) {w₁ : Workspace}
    (children : texts (resolveWithin depth) (w.tree.children id) w = (.ok found, w₁)) {o : Outcome}
    (answer : Rule.select (w₁.seed id).tree ((w₁.seed id).tree.node id) ((w₁.seed id).site id found)
      = .ok o) (reports : Effect.Reports o.effects) :
    ∃ w', resolveWithin (depth + 1) id w = (.ok (((w₁.seed id).site id found).written o), w')
      ∧ w₁.Fills w' ∧ (w'.tree.node id).typing = o.typing := by
  have seeded := w₁.fills_modifyNode id (f := fun n => { n with typing := seedTyping w₁.tree n })
    fun _ => rfl
  obtain ⟨fills, tree⟩ := fills_performAll reports id (w₁.seed id)
  refine ⟨_, resolveWithin_of_ok block function children answer,
    (seeded.trans fills).trans (fills_modifyNode _ id fun _ => rfl), ?_⟩
  have lt : id < w.tree.size := by
    refine Nat.lt_of_not_le fun out => block ?_
    rw [Tree.category, Tree.node_of_size_le out]
    rfl
  have size : (w₁.seed id).tree.size = w.tree.size :=
    (Tree.size_modify ..).trans (Tree.size_of_bare (bare_of_texts children))
  rw [commit, modifyNode, Tree.node_modify_self (by rwa [tree, size])]

/-- No built-in is asked about a variable that has none of their names, or about an operator
or a literal. -/
theorem select_of_plain (same : w.tree.bare = t.bare) (lawful : w.tree.Lawful) {rule : Rule}
    (own : Rule.ofCategory? (t.category id) = some rule) (assign : t.category id ≠ .assign)
    (assigns : t.category id ≠ .assigns)
    (free : t.category id = .var ∨ t.category id = .get → Builtin.isReserved (t.node id).name = false) :
    Rule.select w.tree (w.tree.node id) = rule := by
  have category : (w.tree.node id).category = t.category id := congrFun (Tree.category_of_bare same) id
  refine Rule.select_eq (Rule.builtinOf?_eq_none (straight_of_lawful same lawful assign) ?_ ?_) ?_
  · rwa [category, Tree.name_of_bare same]
  · rwa [category]
  · rwa [category]

/-! ## Texts of formulas -/

/-- Under this configuration the step answers with a text that satisfies `P` with the typing
that the node has then, and little else takes place. -/
def Delivers (t : Tree) (config : Config) (id : NodeId) (P : Typing → String → Prop)
    (step : Resolving String) : Prop :=
  ∀ w : Workspace, w.tree.bare = t.bare → w.tree.Lawful → w.state.config = config →
    ∃ text w', step w = (.ok text, w') ∧ w.Fills w' ∧ P (w'.tree.node id).typing text

theorem Delivers.imp {P Q : Typing → String → Prop} {step : Resolving String}
    (h : Delivers t config id P step) (le : ∀ typing text, P typing text → Q typing text) :
    Delivers t config id Q step := by
  intro w same lawful configured
  obtain ⟨text, w', run, fills, holds⟩ := h w same lawful configured
  exact ⟨text, w', run, fills, le _ _ holds⟩

/-- Children are resolved one after the other, and none changes what another has got. -/
theorem texts_of_delivers {α : Type} {P : α → Typing → String → Prop} (wf : t.WellFormed)
    {parent : NodeId} : ∀ {ids : List NodeId} {xs : List α},
    ids ⊆ t.children parent → ids.Nodup →
    List.Forall₂ (fun c x => Delivers t config c (P x) (resolveWithin depth c)) ids xs →
    ∀ {w : Workspace}, w.tree.bare = t.bare → w.tree.Lawful → w.state.config = config →
      ∃ found w', texts (resolveWithin depth) ids w = (.ok found, w') ∧ w.Fills w'
        ∧ w'.tree.bare = t.bare ∧ w'.tree.Lawful
        ∧ List.Forall₂ (fun (o : Operand) x => P x o.node.typing o.text)
            (operandsAt w'.tree ids found) xs
  | [], [], _, _, .nil, w, same, lawful, _ => ⟨[], w, rfl, .refl w, same, lawful, .nil⟩
  | c :: ids, x :: xs, sub, nodup, .cons here there, w, same, lawful, configured => by
    obtain ⟨mem, rest⟩ := List.cons_subset.mp sub
    obtain ⟨apart, nodup'⟩ := List.nodup_cons.mp nodup
    have steady : ∀ c' ∈ c :: ids, Steady t c' (resolveWithin depth c') := fun c' mem =>
      steady_resolveWithin wf depth (wf.bound parent c' (sub mem))
    obtain ⟨text, w₁, run, fills, holds⟩ := here w same lawful configured
    have leads := (steady c List.mem_cons_self).leads w same lawful
    rw [run] at leads
    have same₁ := leads.bare.trans same
    have lawful₁ := leads.lawful lawful
    obtain ⟨found, w₂, run', fills', same₂, lawful₂, all⟩ :=
      texts_of_delivers wf rest nodup' there same₁ lawful₁ (fills.config.trans configured)
    have kept : (w₂.tree.node c).typing = (w₁.tree.node c).typing := by
      have types := types_texts (fun c' _ => types_resolveWithin wf depth c')
        (fun c' mem => steady c' (List.mem_cons_of_mem c mem)) same₁ lawful₁ c fun c' mem' below => ?_
      · rwa [run'] at types
      · obtain rfl := wf.apart (wf.parent?_of_mem mem) (wf.parent?_of_mem (rest mem'))
          (t.below_self c) below
        exact apart mem'
    refine ⟨text :: found, w₂, ?_, fills.trans fills', same₂, lawful₂, .cons ?_ all⟩
    · rw [texts_of_ok run, run']
      rfl
    · show P x (w₂.tree.node c).typing text
      rwa [kept]

theorem shows_operands {P : Expr → Typing → String → Prop} {tree : Tree} (same : tree.bare = t.bare) :
    ∀ {ids : List NodeId} {es : List Expr} {found : List String}, List.Forall₂ t.Bears ids es →
      List.Forall₂ (fun (o : Operand) x => P x o.node.typing o.text) (operandsAt tree ids found) es →
      List.Forall₂ (Operand.Shows P) (operandsAt tree ids found) es
  | [], [], _, .nil, _ => .nil
  | c :: ids, x :: es, text :: found, .cons bears all, .cons holds rest => by
    refine .cons ⟨?_, holds⟩ (shows_operands same all rest)
    exact (congrFun (Tree.category_of_bare same) c).trans bears.category

/-- The operands of an operator are resolved, and then its rule answers. -/
theorem exists_site_of_bears (wf : t.WellFormed) {P : Expr → Typing → String → Prop} {e : Expr}
    (bears : t.Bears id e) (operator : e.category.isOperator)
    (delivers : List.Forall₂ (fun c x => Delivers t config c (P x) (resolveWithin depth c))
      (t.children id) e.operands)
    (same : w.tree.bare = t.bare) (lawful : w.tree.Lawful) (configured : w.state.config = config) :
    ∃ found w₁ o w', texts (resolveWithin depth) (t.children id) w = (.ok found, w₁)
      ∧ ((w₁.seed id).site id found).node.category = e.category
      ∧ ((w₁.seed id).site id found).texts = found
      ∧ ((w₁.seed id).site id found).Seeded
      ∧ List.Forall₂ (Operand.Shows P) ((w₁.seed id).site id found).operands e.operands
      ∧ Rule.select (w₁.seed id).tree ((w₁.seed id).tree.node id) ((w₁.seed id).site id found) = .ok o
      ∧ resolveWithin (depth + 1) id w = (.ok (((w₁.seed id).site id found).written o), w')
      ∧ w.Fills w' ∧ (w'.tree.node id).typing = o.typing := by
  obtain ⟨-, operands⟩ := bears.operands operator
  obtain ⟨found, w₁, run, fills, same₁, -, all⟩ := texts_of_delivers wf
    (List.Subset.refl _) (wf.nodup_children id) delivers same lawful configured
  have run' : texts (resolveWithin depth) (w.tree.children id) w = (.ok found, w₁) := by
    rw [Tree.children_of_bare same]
    exact run
  have category : ((w₁.seed id).site id found).node.category = e.category := by
    rw [category_of_texts run', Tree.category_of_bare same, bears.category]
  have lengths : found.length = (t.children id).length := length_of_texts run
  have shows : List.Forall₂ (Operand.Shows P) ((w₁.seed id).site id found).operands e.operands := by
    have same' := (w₁.bare_seed id).trans same₁
    have kept : ∀ c ∈ t.children id, (w₁.seed id).tree.node c = w₁.tree.node c := by
      refine fun c mem => Tree.node_modify_of_ne ?_ _
      rintro rfl
      exact wf.not_below_child mem (t.below_self c)
    show List.Forall₂ _ (operandsAt (w₁.seed id).tree ((w₁.seed id).tree.children id) found) _
    rw [Tree.children_of_bare same', operandsAt_congr kept]
    exact shows_operands same₁ operands all
  have some : ((w₁.seed id).site id found).operands ≠ [] := by
    intro none
    have length := shows.length_eq
    rw [none] at length
    exact e.operands_ne_nil operator (List.length_eq_zero_iff.mp length.symm)
  obtain ⟨o, answer⟩ := Rule.exists_of_isOperator (category ▸ operator) some
  have plain : w.tree.category id ≠ .block ∧ w.tree.category id ≠ .function := by
    rw [Tree.category_of_bare same, bears.category]
    exact ⟨ne_of_isOperator operator rfl, ne_of_isOperator operator rfl⟩
  obtain ⟨w', resolved, fills', typing⟩ := resolveWithin_of_reports plain.1 plain.2 run' answer
    (Rule.reports_of_isOperator (category ▸ operator) answer)
  exact ⟨found, w₁, o, w', run, category, Workspace.texts_site_eq _ (lengths_of_texts run'),
    seeded_site wf same₁ lengths, shows, answer, resolved, fills.trans fills', typing⟩

/-- A node without children is resolved to what its rule spells. -/
theorem delivers_leaf (rule : Rule) {P : Typing → String → Prop} (leaf : t.children id = [])
    (own : Rule.ofCategory? (t.category id) = some rule) (assign : t.category id ≠ .assign)
    (assigns : t.category id ≠ .assigns) (block : t.category id ≠ .block)
    (function : t.category id ≠ .function)
    (free : t.category id = .var ∨ t.category id = .get → Builtin.isReserved (t.node id).name = false)
    (spells : ∀ s : Site, s.node.name = (t.node id).name → s.node.value = (t.node id).value →
      s.state.config = config → Rule.Spells rule s P) :
    Delivers t config id P (resolveWithin (depth + 1) id) := by
  intro w same lawful configured
  have children : texts (resolveWithin depth) (w.tree.children id) w = (.ok [], w) := by
    rw [Tree.children_of_bare same, leaf]
    rfl
  have leads := leads_seed (P := fun _ => True) w id
  have same' := leads.bare.trans same
  obtain ⟨o, answer, holds, effects⟩ := spells ((w.seed id).site id [])
    (Tree.name_of_bare same' id) (Tree.value_of_bare same' id) configured
  have select := select_of_plain same' (leads.lawful lawful) own assign assigns free
  obtain ⟨w', run, fills, typing⟩ := resolveWithin_of_reports (o := o)
    (by rwa [Tree.category_of_bare same]) (by rwa [Tree.category_of_bare same]) children
    (by rw [select]; exact answer) (effects ▸ Rule.reports_nil)
  exact ⟨_, w', run, fills, typing.symm ▸ holds⟩

/-- A variable that is no built-in is resolved to its name, and has its declared type if there
is one. -/
theorem delivers_name {x : String} (written : (t.node id).written = { category := .var, name := x })
    (free : Builtin.isReserved x = false) :
    Delivers t config id (fun typing text => text = x
      ∧ ∀ d, config.declarations.get? x = some d → typing = .of d) (resolveWithin (depth + 1) id) := by
  have category : t.category id = .var := Node.category_of_written written
  have name : (t.node id).name = x := Node.name_of_written written
  refine delivers_leaf Rule.var (Node.children_of_written written) (category ▸ rfl)
    (category ▸ nofun) (category ▸ nofun) (category ▸ nofun) (category ▸ nofun)
    (fun _ => name.symm ▸ free) fun s same _ configured => ?_
  rw [← name, ← same, ← configured]
  exact Rule.spells_var s

theorem delivers_literal {kind : LiteralKind} {v : String}
    (written : (t.node id).written = { category := kind.category, value := some v }) :
    Delivers t config id (fun typing text => text = kind.emitted v ∧ typing = .of kind.datatype)
      (resolveWithin (depth + 1) id) := by
  have category : t.category id = kind.category := Node.category_of_written written
  have value : (t.node id).value = some v := Node.value_of_written written
  have other : ∀ c ∈ [Category.assign, .assigns, .block, .function, .var, .get],
      t.category id ≠ c := by
    rw [category]
    cases kind <;> decide
  obtain ⟨rule, own, spells⟩ := Rule.spells_literal kind
  exact delivers_leaf _ (Node.children_of_written written) (category ▸ own) (other _ (by simp))
    (other _ (by simp)) (other _ (by simp)) (other _ (by simp))
    (fun h => absurd h (not_or.mpr ⟨other _ (by simp), other _ (by simp)⟩))
    fun s _ same _ => spells s v (same.trans value)

/-- What holds of names and literals, and is kept by the rules of operators, holds of every
expression that a node bears. -/
theorem delivers_of_bears (wf : t.WellFormed) {F : Expr → Prop} {P : Expr → Typing → String → Prop}
    (below : ∀ {e x : Expr}, F e → x ∈ e.operands → F x)
    (names : ∀ {x : String}, F (.name x) → Builtin.isReserved x = false
      ∧ ∀ typing, (∀ d, config.declarations.get? x = some d → typing = .of d) → P (.name x) typing x)
    (literals : ∀ {kind : LiteralKind} {s : String}, F (.literal kind s) →
      P (.literal kind s) (.of kind.datatype) (kind.emitted s))
    (operators : ∀ {e : Expr} {s : Site} {o : Outcome}, F e → e.category.isOperator →
      s.node.category = e.category → s.Seeded → List.Forall₂ (Operand.Shows P) s.operands e.operands →
      Rule.select s.tree s.node s = .ok o → P e o.typing (s.written o))
    {e : Expr} (bears : t.Bears id e) : F e → ∀ {depth : Nat}, Enough t depth id →
      Delivers t config id (P e) (resolveWithin depth id) := by
  induction bears with
  | @name id x written =>
    intro formula depth enough
    obtain ⟨depth, rfl⟩ := enough.exists_succ
    obtain ⟨free, holds⟩ := names formula
    exact (delivers_name written free).imp fun typing text ⟨eq, declared⟩ => eq ▸ holds typing declared
  | @literal id kind v written =>
    intro formula depth enough
    obtain ⟨depth, rfl⟩ := enough.exists_succ
    refine (delivers_literal written).imp fun typing text ⟨spelled, type⟩ => ?_
    rw [spelled, type]
    exact literals formula
  | @operator id e children operator written lengths bears ih =>
    intro formula depth enough
    obtain ⟨depth, rfl⟩ := enough.exists_succ
    have children' : t.children id = children := Node.children_of_written written
    have whole : t.Bears id e := .operator operator written lengths bears
    have delivers : List.Forall₂ (fun c x => Delivers t config c (P x) (resolveWithin depth c))
        (t.children id) e.operands := by
      rw [children']
      refine List.forall₂_iff_zip.mpr ⟨lengths, fun mem => ih mem ?_ (enough.child wf ?_)⟩
      · exact below formula (List.of_mem_zip mem).2
      · rw [children']
        exact (List.of_mem_zip mem).1
    intro w same lawful configured
    obtain ⟨found, w₁, o, w', -, category, -, seeded, shows, answer, run, fills, typing⟩ :=
      exists_site_of_bears wf whole operator delivers same lawful configured
    exact ⟨_, w', run, fills, typing ▸ operators formula operator category seeded shows answer⟩

/-! ## One assignment -/

/-- A node that is not redirected is written as in the program. -/
theorem written_of_bare (same : w.tree.bare = t.bare) (straight : (w.tree.node id).redirect = none)
    {n : Node} (written : (t.node id).written = n) (plain : n.redirect = none) :
    (w.tree.node id).written = n := by
  have bare := Tree.node_of_bare same id
  have redirect := Node.redirect_of_written written
  generalize w.tree.node id = m at bare straight
  generalize t.node id = m' at written bare redirect
  simp only [Node.bare, Node.mk.injEq] at bare
  rw [← written, Node.written, Node.written, straight, redirect, plain, bare.1, bare.2.1, bare.2.2.1,
    bare.2.2.2.1]

section Assignment

variable {y : String} {e : Expr} {root statement target value : NodeId} {P : String → Prop}
  (wf : t.WellFormed) (raw : t.Raw) (free : Builtin.isReserved y = false)
  (assigns : t.Assigns y e root statement target value) (config : Config)
  (delivers : ∀ depth, Enough t depth value →
    Delivers t config value (fun _ text => P text) (resolveWithin depth value))
include wf raw free assigns delivers

/-- An assignment is resolved after its destination and its right side. -/
theorem resolve_of_assigns : ∃ text w', P text ∧ w'.state.pending = []
    ∧ resolveWithin (t.size + 1) statement ⟨t, .ofConfig config⟩
      = (.ok (y ++ " = " ++ text ++ " ;"), w') := by
  obtain ⟨top, block, assign, destination, -⟩ := assigns
  have category : t.category statement = .assign := Node.category_of_written assign
  have children : t.children statement = [target, value] := Node.children_of_written assign
  have mem : ∀ c ∈ [target, value], c ∈ t.children statement := fun c mem => by rwa [children]
  have there : statement ∈ t.children root := by
    rw [show t.children root = [statement] from Node.children_of_written block]
    exact List.mem_cons_self
  have enough : Enough t t.size value := (enough_of_root wf top there).child wf (mem value (by simp))
  obtain ⟨depth, size⟩ : ∃ depth, t.size = depth + 1 := enough.exists_succ
  have left : Delivers t config target (fun _ text => text = y) (resolveWithin t.size target) :=
    size ▸ (delivers_name destination free).imp fun _ _ h => h.1
  have all : List.Forall₂ (fun c (P : String → Prop) =>
      Delivers t config c (fun _ text => P text) (resolveWithin t.size c)) [target, value] [(· = y), P] :=
    .cons left (.cons (delivers _ enough) .nil)
  obtain ⟨found, w₁, run, fills, same, -, holds⟩ := texts_of_delivers (w := ⟨t, .ofConfig config⟩)
    (P := fun (P : String → Prop) _ text => P text) wf mem
    (children ▸ wf.nodup_children statement) all rfl raw.lawful rfl
  obtain ⟨text, right, rfl⟩ : ∃ text, P text ∧ found = [y, text] := by
    have length : found.length = [target, value].length := length_of_texts run
    obtain ⟨a, b, rfl⟩ := List.length_eq_two.mp length
    obtain ⟨here, rest⟩ := List.forall₂_cons.mp holds
    exact ⟨b, (List.forall₂_cons.mp rest).1, congrArg (· :: [b]) here⟩
  have straight : ∀ i, (w₁.tree.node i).redirect = none := fun i =>
    (fills.redirect i).trans (congrArg Node.redirect (raw i).bare).symm
  obtain ⟨w₂, applied, pending⟩ := applyRule_assign text (Tree.size_of_bare same ▸ wf.bound root _ there)
    (written_of_bare same (straight _) assign rfl)
    (written_of_bare same (straight _) destination rfl) free
    fun eq => wf.not_below_child (mem target (by simp)) (eq ▸ t.below_self target)
  refine ⟨text, w₂, right, pending.trans fills.pending, ?_⟩
  have inner : (t.node statement).category ≠ .block ∧ (t.node statement).category ≠ .function := by
    rw [show (t.node statement).category = .assign from category]
    exact ⟨nofun, nofun⟩
  rw [resolveWithin_eq_node _ inner, node]
  dsimp only
  rw [children, run]
  exact applied

/-- An assignment whose right side is resolved is one line. -/
theorem rootLines_of_assigns (name : isName y) (line : ∀ text, P text → '\n' ∉ text.toList) :
    ∃ text w', rootLines ⟨t, .ofConfig config⟩ = ([y ++ " = " ++ text ++ " ;"], w') ∧ P text := by
  obtain ⟨text, w', holds, pending, run⟩ := resolve_of_assigns wf raw free assigns config delivers
  have single : Text.lines (y ++ " = " ++ text ++ " ;") = [y ++ " = " ++ text ++ " ;"] := by
    refine Text.lines_eq (by simp) ?_
    simp [line text holds, Cpp.no_newline_of_isName name]
  have lines : statementLines (resolveWithin (t.size + 1)) statement ⟨t, .ofConfig config⟩
      = ([y ++ " = " ++ text ++ " ;"], { w' with state := w'.state.withPending [] }) := by
    have start : (State.ofConfig config).withPending [] = State.ofConfig config := rfl
    unfold statementLines
    dsimp only
    rw [start, run]
    dsimp only
    rw [pending, single]
    rfl
  have block : (t.node root).category = .block := Node.category_of_written assigns.block
  have statements : t.children root = [statement] := Node.children_of_written assigns.block
  refine ⟨text, { w' with state := w'.state.withPending [] }, ?_, holds⟩
  rw [rootLines]
  dsimp only
  rw [assigns.top]
  dsimp only
  rw [block, statements]
  dsimp only
  rw [blockLines, lines]
  rfl

end Assignment

end Resolving

/-- An assignment of an expression that is resolved is translated to one line. -/
theorem translateWith_of_delivers {source y : String} {e : Expr} {config : Config}
    {P : String → Prop}
    (parses : Program.parse source = .ok [.statement (.assign (.variable y) e)])
    (free : Builtin.isReserved y = false) (numbered : Tree.Numbered e)
    (delivers : ∀ (t : Tree) (id : NodeId) (depth : Nat), t.WellFormed → t.Bears id e →
      Resolving.Enough t depth id →
      Resolving.Delivers t config id (fun _ text => P text) (Resolving.resolveWithin depth id))
    (line : ∀ text, P text → '\n' ∉ text.toList) (valid : config.validate = .ok config) :
    ∃ translation text, translateWith source config = .ok translation
      ∧ translation.statements = [y ++ " = " ++ text ++ " ;"] ∧ P text := by
  have accepted := Program.accepted_of_parse parses
  obtain ⟨name, -⟩ : isName y ∧ e.Canonical := accepted _ List.mem_cons_self
  obtain ⟨root, statement, target, value, assigns⟩ := Tree.exists_assign_ofProgram y numbered
  have wf := Tree.wellFormed_ofProgram accepted
  have raw := Tree.raw_ofProgram accepted
  generalize made : Tree.ofProgram [.statement (.assign (.variable y) e)] = t at assigns wf raw
  obtain ⟨text, w', lines, holds⟩ := Resolving.rootLines_of_assigns wf raw free assigns config
    (fun depth enough => delivers t value depth wf assigns.value enough) name line
  refine ⟨.ofState [y ++ " = " ++ text ++ " ;"] w'.state, text, ?_, rfl, holds⟩
  rw [translateWith_of_parse parses valid, made, lines]

end MatrixScript
