/-
# `Proofs.Translation.Subscript` — subscripts select the same elements

The text of a subscript of a declared variable is the same wherever it is resolved
(`Resolving.Gives`), and read as C++ its arguments stand for the positions of the
script, counted from zero (`Translator.subscript_positions`).  The rules of a
subscript look at the program, at texts and at whether the variable is known, so
what else has been filled in or remembered by then does not matter.

Literals that are emitted as they are written are read as octal numbers if a zero
stands in front (`Translator.subscript_positions_octal`).
-/
import MatrixScript.Proofs.Cpp.Selected
import MatrixScript.Proofs.Translation.Safe
import MatrixScript.Proofs.Translation.Scalar
import MatrixScript.Proofs.Translation.Typing
import MatrixScript.Proofs.Translation.Twin

namespace MatrixScript

open Program (Shift Bound Argument)

/-! ## Subscripts in a tree -/

namespace Program

/-- Category of the nodes of an operator. -/
def Shift.category : Shift → Category
  | .plus => .add
  | .minus => .sub

end Program

namespace Tree

variable (t : Tree)

/-- The node is an integer literal. -/
def IsInteger (id : NodeId) (digits : String) : Prop :=
  t.category id = .int ∧ (t.node id).value = some digits

instance (id : NodeId) (digits : String) : Decidable (t.IsInteger id digits) :=
  inferInstanceAs (Decidable (_ ∧ _))

/-- The node is a bound. -/
inductive IsBound : NodeId → Bound → Prop
  | literal {id : NodeId} {s : String} : t.IsInteger id s → IsBound id (.literal s)
  | last {id : NodeId} : t.category id = .last → IsBound id .last
  | chain {id first : NodeId} {rest : List NodeId} {op : Shift} {b : Bound} {literals : List String} :
      t.category id = op.category → t.children id = first :: rest → IsBound first b →
      List.Forall₂ t.IsInteger rest literals → IsBound id (b.chain op literals)

/-- The node is the step of a range. -/
inductive IsStep : NodeId → Bool → String → Prop
  | literal {id : NodeId} {s : String} : t.IsInteger id s → IsStep id false s
  | negated {id child : NodeId} {s : String} : t.category id = .neg → t.children id = [child] →
      t.IsInteger child s → IsStep id true s

/-- The node is an argument of a subscript. -/
inductive IsArgument : NodeId → Argument → Prop
  | bound {id : NodeId} {b : Bound} : t.IsBound id b → IsArgument id (.bound b)
  | all {id : NodeId} : t.category id = .all → IsArgument id .all
  | range {id p q : NodeId} {start stop : Bound} : t.category id = .range →
      t.children id = [p, q] → t.IsBound p start → t.IsBound q stop →
      IsArgument id (.range start stop)
  | stepped {id p r q : NodeId} {start stop : Bound} {negated : Bool} {step : String} :
      t.category id = .range → t.children id = [p, r, q] → t.IsBound p start →
      t.IsStep r negated step → t.IsBound q stop → IsArgument id (.stepped start negated step stop)

/-! ### Literals are tokens -/

section Spelled

variable {t : Tree} (wf : t.WellFormed)
include wf

theorem IsInteger.digits {id : NodeId} {s : String} (h : t.IsInteger id s) : Program.Digits s := by
  have spells := (wf.shaped id (lt_size_of_category h.1 nofun)).spelled s h.2
  rw [h.1] at spells
  exact Token.all_isDigit_of_int (eq_of_beq spells)

theorem IsBound.spelled {id : NodeId} {b : Bound} (h : t.IsBound id b) : b.Spelled := by
  induction h with
  | literal integer => exact integer.digits wf
  | last => trivial
  | @chain id first rest op b literals _ _ _ others ih =>
    clear * - wf others ih
    induction others generalizing b with
    | nil => exact ih
    | cons integer _ more => exact more ⟨ih, integer.digits wf⟩

theorem IsArgument.spelled {id : NodeId} {a : Argument} (h : t.IsArgument id a) : a.Spelled := by
  cases h with
  | bound bound => exact bound.spelled wf
  | all => trivial
  | range _ _ start stop => exact ⟨start.spelled wf, stop.spelled wf⟩
  | stepped _ _ start step stop =>
    refine ⟨start.spelled wf, ?_, stop.spelled wf⟩
    cases step with
    | literal integer => exact integer.digits wf
    | negated _ _ integer => exact integer.digits wf

end Spelled

end Tree

/-! ## Resolving -/

namespace Resolving

/-- A workspace of a program in which a variable is declared. -/
structure Ready (t : Tree) (x : String) (d : Datatype) (w : Workspace) : Prop where
  bare : w.tree.bare = t.bare
  redirects : ∀ i, (w.tree.node i).redirect.isSome → (w.tree.node i).category = .assign
  declared : w.state.config.declarations.get? x = some d

/-- Whenever the node is resolved, its text is this one. -/
def Gives (t : Tree) (x : String) (d : Datatype) (id : NodeId) (text : String) : Prop :=
  ∀ depth, Enough t depth id → ∀ w, Ready t x d w →
    ∃ w', resolveWithin depth id w = (.ok text, w')

/-- What a rule sees of a node whose children have texts. -/
structure Sees (t : Tree) (x : String) (d : Datatype) (id : NodeId) (texts : List String)
    (s : Site) : Prop where
  here : s.id = id
  bare : s.tree.bare = t.bare
  redirect : s.node.redirect.isSome → s.node.category = .assign
  operands : s.operands = ((t.children id).zip texts).map fun (c, text) => ⟨c, s.tree.node c, text⟩
  lookup : s.lookup x = some d

variable {t : Tree} (wf : t.WellFormed) {x : String} {d : Datatype}

theorem stable_ready : Stable t (fun _ => True) (Ready t x d) where
  children _ _ _ _ := trivial
  bare _ ready := ready.bare
  state _ _ ready config _ _ _ := ⟨ready.bare, ready.redirects, config ▸ ready.declared⟩
  opened _ ready := ⟨ready.bare, ready.redirects, ready.declared⟩
  closed w ready := ⟨ready.bare, ready.redirects, by
    rw [(w.state.grows_popScope).config]
    exact ready.declared⟩
  seed id w _ ready := ⟨(w.bare_seed id).trans ready.bare,
    Tree.forall_modify (p := fun n => n.redirect.isSome → n.category = .assign) ready.redirects fun there => there,
    ready.declared⟩
  effect s v e _ here _ modest ready := by
    refine ⟨(Workspace.bare_perform s.id v e).trans ready.bare, ?_, ?_⟩
    · exact Workspace.forall_perform (p := fun n => n.redirect.isSome → n.category = .assign)
        (ready.bare.trans here.bare.symm) modest (fun _ _ there => there)
        (fun _ _ assign _ _ => assign) (fun _ _ _ there => there) ready.redirects
    · rw [(Workspace.extends_perform s.id v e).config]
      exact ready.declared
  write s v _ _ _ _ _ _ ready := ⟨(v.bare_modifyNode s.id fun _ => by rfl).trans ready.bare,
    Tree.forall_modify (p := fun n => n.redirect.isSome → n.category = .assign) ready.redirects fun there => there,
    ready.declared⟩

include wf

theorem ready_resolveWithin (depth : Nat) (id : NodeId) {w : Workspace} (ready : Ready t x d w) :
    Ready t x d (resolveWithin depth id w).2 :=
  stable_resolveWithin stable_ready wf depth id trivial w ready

/-- Children give their texts one after the other. -/
theorem texts_of_gives {depth : Nat} {ids : List NodeId} {found : List String}
    (gives : List.Forall₂ (Gives t x d) ids found) (enough : ∀ c ∈ ids, Enough t depth c)
    {w : Workspace} (ready : Ready t x d w) :
    ∃ w', texts (resolveWithin depth) ids w = (.ok found, w') ∧ Ready t x d w' := by
  induction gives generalizing w with
  | nil => exact ⟨w, rfl, ready⟩
  | @cons c text ids found here _ ih =>
    obtain ⟨first, rest⟩ := List.forall_mem_cons.mp enough
    obtain ⟨w₁, run⟩ := here depth first w ready
    have ready₁ := ready_resolveWithin wf depth c ready
    rw [run] at ready₁
    obtain ⟨w₂, run', ready₂⟩ := ih rest ready₁
    refine ⟨w₂, ?_, ready₂⟩
    unfold texts
    rw [run]
    dsimp only
    rw [run']

/-- A node gives the text that its rule makes of the texts of its children. -/
theorem gives_of_answer {id : NodeId} {found : List String} {text : String}
    (inner : t.category id ≠ .block ∧ t.category id ≠ .function)
    (children : List.Forall₂ (Gives t x d) (t.children id) found)
    (answer : ∀ s, Sees t x d id found s → ∃ o, Rule.select s.tree s.node s = .ok o
      ∧ ∀ n : Node, n.value = (t.node id).value → o.template.render n found = text) :
    Gives t x d id text := by
  intro depth enough w ready
  obtain ⟨depth, rfl⟩ := enough.exists_succ
  obtain ⟨w₁, run, ready₁⟩ := texts_of_gives wf children (fun c mem => enough.child wf mem) ready
  have category : (w.tree.node id).category = t.category id :=
    congrFun (Tree.category_of_bare ready.bare) id
  have seeded : Ready t x d (w₁.seed id) := stable_ready.seed id w₁ trivial ready₁
  have children₁ : (w₁.seed id).tree.children = t.children := Tree.children_of_bare seeded.bare
  obtain ⟨o, ok, renders⟩ := answer ((w₁.seed id).site id found)
    { here := rfl
      bare := seeded.bare
      redirect := seeded.redirects id
      operands := by
        show (((w₁.seed id).tree.children id).zip found).map _ = _
        rw [children₁]
        rfl
      lookup := by
        show (w₁.seed id).state.lookup x = some d
        rw [State.lookup, seeded.declared] }
  refine ⟨(w₁.seed id).commit id found o, ?_⟩
  rw [resolveWithin_eq_node depth (category ▸ inner), node, Tree.children_of_bare ready.bare, run]
  show applyRule id found w₁ = _
  unfold applyRule
  dsimp only
  change Rule.select (w₁.seed id).tree ((w₁.seed id).tree.node id) ((w₁.seed id).site id found) = _ at ok
  rw [ok]
  have value : ({ (w₁.seed id).tree.node id with typing := o.typing } : Node).value = (t.node id).value :=
    Tree.value_of_bare seeded.bare id
  exact congrArg (fun text => (Except.ok text, (w₁.seed id).commit id found o)) (renders _ value)

end Resolving

/-! ## The rules of a subscript -/

namespace Tree

/-- Nothing but sums and a range stands between the node and the argument `c`. -/
inductive Inside (t : Tree) (c : NodeId) : NodeId → Prop
  | self : Inside t c c
  | step {id p : NodeId} : t.parent? id = some p → t.category p ∈ [.add, .sub, .range] →
      Inside t c p → Inside t c id

/-- The node `c` is the argument of a subscript `top` of a variable along an axis. -/
structure Spot (t : Tree) (x : String) (top c : NodeId) (axis : Nat) : Prop where
  subscript : (t.category top).isSubscript
  name : (t.node top).name = x
  place : (t.children top)[axis]? = some c
  bound : axis < Cpp.members.length

namespace Spot

variable {t : Tree} {x : String} {top c : NodeId} {axis : Nat} (h : t.Spot x top c axis)
include h

theorem mem : c ∈ t.children top := List.mem_of_getElem? h.place

variable (wf : t.WellFormed)
include wf

theorem up : t.parent? c = some top := wf.parent?_of_mem h.mem

theorem position : t.position? c = some axis := by
  obtain ⟨lt, eq⟩ := List.getElem?_eq_some_iff.mp h.place
  rw [position?, h.up wf]
  refine List.findIdx?_eq_some_iff_getElem.mpr ⟨lt, beq_iff_eq.mpr eq, fun j before same => ?_⟩
  have there := (List.Nodup.getElem_inj_iff (wf.nodup_children top)).mp ((beq_iff_eq.mp same).trans eq.symm)
  omega

end Spot

end Tree

namespace Resolving.Sees

variable {t : Tree} {x : String} {d : Datatype} {id : NodeId} {texts : List String} {s : Site}
  (h : Sees t x d id texts s)
include h

theorem category : s.node.category = t.category id := by
  rw [← h.here]
  exact congrFun (Tree.category_of_bare h.bare) s.id

/-- No node but an assignment is about another built-in than its own. -/
theorem redirect_none (other : t.category id ≠ .assign) : s.node.redirect = none := by
  rw [← Option.not_isSome_iff_eq_none]
  intro redirected
  exact other (h.category.symm.trans (h.redirect redirected))

theorem select {c : Category} (category : t.category id = c)
    (other : c ∉ [.var, .get, .assigns, .assign]) {rule : Rule} (own : Rule.ofCategory? c = some rule) :
    Rule.select s.tree s.node s = rule s := by
  have here := h.category.trans category
  have none : s.node.redirect = .none :=
    h.redirect_none fun eq => other (by rw [← category, eq]; decide)
  have plain : Rule.builtinOf? s.tree s.node = .none := by
    refine Resolving.builtinOf?_of_written (n := s.node.written) rfl none ?_
    show s.node.category ∉ _
    rw [here]
    exact fun mem => other (List.mem_append_left [Category.assign] mem)
  rw [Rule.select_eq plain (here ▸ own)]

/-- The node is an argument of the variable. -/
theorem subscripted? (wf : t.WellFormed) {top : NodeId} {axis : Nat} (spot : t.Spot x top id axis) :
    Rule.subscripted? s = some x := by
  have parent : s.parent? = some (s.tree.node top) := by
    rw [Site.parent?, h.here, Tree.parent?_of_bare h.bare, spot.up wf]
    rfl
  have subscript : (s.tree.category top).isSubscript := by
    rw [Tree.category_of_bare h.bare]
    exact spot.subscript
  rw [Rule.subscripted?, parent]
  dsimp only
  rw [if_pos (show (s.tree.node top).category.isSubscript from subscript), Tree.name_of_bare h.bare,
    spot.name]

theorem name : s.node.name = (t.node id).name := by
  rw [← h.here]
  exact Tree.name_of_bare h.bare s.id

/-- A subscript; what is read by the name of a built-in is a call of it. -/
theorem select_subscript (subscript : (t.category id).isSubscript) (named : (t.node id).name = x)
    (free : t.category id = .get → Builtin.isReserved x = false) :
    Rule.select s.tree s.node s = Rule.subscript s := by
  cases category : t.category id with
  | set => exact h.select category (by decide) rfl
  | get =>
    have here := h.category.trans category
    have plain : Rule.builtinOf? s.tree s.node = none := by
      have own := free category
      rw [Builtin.isReserved, Option.isSome_eq_false_iff, Option.isNone_iff_eq_none, ← named,
        ← h.name] at own
      rw [Rule.builtinOf?, h.redirect_none (by rw [category]; decide), here]
      exact own
    exact congrFun (Rule.select_eq plain (by rw [here]; rfl)) s
  | _ => rw [category] at subscript; cases subscript

/-- The search for what an `end` belongs to comes to the subscript around it. -/
theorem extentOwner? (wf : t.WellFormed) {top c : NodeId} {axis : Nat} (spot : t.Spot x top c axis)
    {i : NodeId} (inside : t.Inside c i) :
    Rule.extentOwner? s i (s.tree.ancestors i) = some (top, c) := by
  have categories : s.tree.category = t.category := Tree.category_of_bare h.bare
  induction inside with
  | self =>
    have gives : Rule.givesExtent s (s.tree.node top) := by
      have name : (s.tree.node top).name = x := (Tree.name_of_bare h.bare top).trans spot.name
      have subscript := spot.subscript
      rw [← categories] at subscript
      unfold Rule.givesExtent Site.isVariable
      rw [name, h.lookup]
      show (s.tree.category top == .set || (s.tree.category top == .get && true))
      generalize s.tree.category top = c at subscript
      cases c <;> first | rfl | cases subscript
    rw [Tree.ancestors_of_bare h.bare, wf.ancestors_of_parent? (spot.up wf), Rule.extentOwner?,
      if_pos gives]
  | @step i p up between _ ih =>
    have category : s.tree.category p ∈ [Category.add, .sub, .range] := categories ▸ between
    have passes : Rule.givesExtent s (s.tree.node p) = false
        ∧ ((s.tree.node p).category == .block) = false := by
      change Rule.givesExtent s (s.tree.node p) = false ∧ (s.tree.category p == .block) = false
      unfold Rule.givesExtent
      change (s.tree.category p == .set || (s.tree.category p == .get && _)) = false
        ∧ (s.tree.category p == .block) = false
      simp only [List.mem_cons, List.not_mem_nil, or_false] at category
      rcases category with eq | eq | eq <;> rw [eq] <;> exact ⟨rfl, rfl⟩
    rw [Tree.ancestors_of_bare h.bare] at ih ⊢
    rw [wf.ancestors_of_parent? up, Rule.extentOwner?, passes.1, passes.2]
    exact ih

/-- A bound is counted from zero. -/
theorem zeroBased (wf : t.WellFormed) {c : NodeId} {b : Bound} (bound : t.IsBound c b) (axis : Nat) :
    Rule.zeroBased ⟨c, s.tree.node c, String.ofList (b.sum x axis).spelled⟩
      = String.ofList (b.index x axis).spelled := by
  have value : (s.tree.node c).intValue? = (t.node c).intValue? :=
    Tree.field_of_bare h.bare Node.intValue? (fun _ => rfl) c
  have unfolded : (t.node c).intValue? = none → b.index x axis = Program.pred (b.sum x axis) →
      Rule.zeroBased ⟨c, s.tree.node c, String.ofList (b.sum x axis).spelled⟩
        = String.ofList (b.index x axis).spelled := by
    intro none index
    rw [Rule.zeroBased, value.trans none, index]
    apply String.toList_injective
    rw [String.toList_ofList]
    exact Program.toList_pred _
  have other : t.category c ≠ .int → (t.node c).intValue? = none := by
    intro ne
    unfold Node.intValue?
    split
    · rename_i int _
      exact absurd int ne
    · rfl
  cases bound with
  | @literal _ digits integer =>
    have folds : (t.node c).intValue? = Node.integer? digits.toList := by
      have int : (t.node c).category = .int := integer.1
      rw [Node.intValue?, int, integer.2]
    cases found : Node.integer? digits.toList with
    | none =>
      refine unfolded (folds.trans found) ?_
      rw [Bound.index, found]
      rfl
    | some v =>
      obtain ⟨low, high⟩ := wf.literal_nonneg (folds.trans found)
      obtain ⟨n, rfl⟩ := Int.eq_ofNat_of_zero_le low
      rw [Rule.zeroBased, value.trans (folds.trans found), Bound.index, found]
      dsimp only
      rw [Node.predecessor_literal low high, Int.toNat_natCast]
      cases n with
      | zero => rfl
      | succ n =>
        rw [Nat.cast_succ, add_sub_cancel_right]
        exact String.ofList_toList.symm
  | last category => exact unfolded (other (by rw [category]; decide)) rfl
  | @chain _ first rest op b literals category children _ others =>
    refine unfolded (other (by rw [category]; cases op <;> decide)) (Program.index_chain op b ?_)
    rintro rfl
    cases others
    have admits := (wf.shaped c (Tree.lt_size_of_category category (by cases op <;> nofun))).children
    rw [category, children] at admits
    cases op <;> cases admits

/-- In a subscript an argument is counted from zero. -/
theorem indexText (wf : t.WellFormed) {c : NodeId} {a : Argument} (argument : t.IsArgument c a)
    (axis : Nat) : Rule.indexText ⟨c, s.tree.node c, String.ofList (a.text x axis)⟩
      = String.ofList (a.selector x axis).spelled := by
  have category : (s.tree.node c).category = t.category c :=
    congrFun (Tree.category_of_bare h.bare) c
  unfold Rule.indexText
  dsimp only
  rw [category]
  cases argument with
  | bound bound =>
    have plain : (t.category c == .range || t.category c == .all) = false := by
      cases bound with
      | literal integer => rw [integer.1]; rfl
      | last category => rw [category]; rfl
      | @chain _ _ _ op _ _ category => rw [category]; cases op <;> rfl
    rw [plain, if_neg Bool.false_ne_true]
    exact h.zeroBased wf bound axis
  | all category => rw [category]; rfl
  | range category => rw [category]; rfl
  | stepped category => rw [category]; rfl

end Resolving.Sees

namespace Resolving

variable {t : Tree} (wf : t.WellFormed) {x : String} {d : Datatype}
include wf

/-- A node without children. -/
theorem gives_leaf {id : NodeId} {c : Category} (category : t.category id = c)
    (leaf : ∀ cs, c.admits cs = cs.isEmpty) (block : c ≠ .block)
    (other : c ∉ [.var, .get, .assigns, .assign, .function]) {rule : Rule}
    (own : Rule.ofCategory? c = some rule) {text : String}
    (answer : ∀ s, Sees t x d id [] s → ∃ o, rule s = .ok o
      ∧ ∀ n : Node, n.value = (t.node id).value → o.template.render n [] = text) :
    Gives t x d id text := by
  have lt : id < t.size := Tree.lt_size_of_category category block
  have children : t.children id = [] := wf.children_eq_nil lt (category ▸ leaf)
  have none : List.Forall₂ (Gives t x d) (t.children id) [] := by
    rw [children]
    exact .nil
  refine gives_of_answer wf ?_ none fun s sees => ?_
  · rw [category]
    exact ⟨block, fun eq => other (by rw [eq]; decide)⟩
  · rw [sees.select category (fun mem => other (List.mem_append_left [Category.function] mem)) own]
    exact answer s sees

theorem gives_integer {id : NodeId} {digits : String} (h : t.IsInteger id digits) :
    Gives t x d id digits :=
  gives_leaf wf h.1 (fun _ => rfl) nofun (by decide) rfl fun _ _ =>
    ⟨_, rfl, fun n value => Template.render_value n [] (value.trans h.2)⟩

theorem gives_last {top c id : NodeId} {axis : Nat} (spot : t.Spot x top c axis)
    (inside : t.Inside c id) (category : t.category id = .last) :
    Gives t x d id (String.ofList (Cpp.Term.extent x axis).spelled) := by
  refine gives_leaf wf category (fun _ => rfl) nofun (by decide) rfl fun s sees => ?_
  have owner := sees.extentOwner? wf spot inside
  have extents : ∀ k < Cpp.members.length, Rule.axisExtent? k = some (Cpp.members.getD k "") := by
    decide
  have name : (s.tree.node top).name = x := (Tree.name_of_bare sees.bare top).trans spot.name
  refine ⟨⟨.fixed (x ++ "." ++ Cpp.members.getD axis ""), .of (.scalar .uword), []⟩, ?_, fun _ _ => ?_⟩
  · unfold Rule.last
    rw [sees.here, owner]
    dsimp only
    rw [Tree.position?_of_bare sees.bare, spot.position wf]
    rw [Option.bind_some, extents axis spot.bound]
    dsimp only
    rw [name]
    rfl
  · show x ++ "." ++ Cpp.members.getD axis "" = _
    apply String.toList_injective
    simp [Cpp.Term.spelled]

theorem gives_bound {top c id : NodeId} {axis : Nat} (spot : t.Spot x top c axis)
    (inside : t.Inside c id) {b : Bound} (h : t.IsBound id b) :
    Gives t x d id (String.ofList (b.sum x axis).spelled) := by
  induction h with
  | @literal id s integer =>
    have spelled : String.ofList ((Bound.literal s).sum x axis).spelled = s := String.ofList_toList
    rw [spelled]
    exact gives_integer wf integer
  | last category => exact gives_last wf spot inside category
  | @chain id first rest op b literals category children _ others ih =>
    have up : t.parent? first = some id :=
      wf.parent?_of_mem (by rw [children]; exact List.mem_cons_self)
    have between : t.category id ∈ [.add, .sub, .range] := by
      rw [category]
      cases op <;> decide
    have gives : List.Forall₂ (Gives t x d) (t.children id)
        (String.ofList (b.sum x axis).spelled :: literals) := by
      rw [children]
      exact .cons (ih (.step up between inside)) (others.imp fun _ _ => gives_integer wf)
    refine gives_of_answer wf ?_ gives fun s sees => ?_
    · rw [category]
      cases op <;> exact ⟨nofun, nofun⟩
    · have joined : "" ++ Text.joined (String.singleton op.symbol)
          (String.ofList (b.sum x axis).spelled :: literals) ++ ""
          = String.ofList ((b.chain op literals).sum x axis).spelled := by
        rw [joined_cons, String.append_empty, String.empty_append]
        exact Program.text_chain op b literals
      cases op with
      | plus =>
        rw [sees.select category (by decide) rfl]
        exact ⟨_, rfl, fun _ _ => joined⟩
      | minus =>
        rw [sees.select category (by decide) rfl]
        exact ⟨_, rfl, fun _ _ => joined⟩

theorem gives_step {id : NodeId} {negated : Bool} {digits : String} (h : t.IsStep id negated digits) :
    Gives t x d id (String.ofList (Program.stepTerm negated digits).spelled) := by
  cases h with
  | literal integer =>
    have spelled : String.ofList (Program.stepTerm false digits).spelled = digits := String.ofList_toList
    rw [spelled]
    exact gives_integer wf integer
  | negated category children integer =>
    have gives : List.Forall₂ (Gives t x d) (t.children id) [digits] := by
      rw [children]
      exact .cons (gives_integer wf integer) .nil
    refine gives_of_answer wf (by rw [category]; exact ⟨nofun, nofun⟩) gives fun s sees => ?_
    rw [sees.select category (by decide) rfl]
    refine ⟨_, rfl, fun _ _ => ?_⟩
    show "-(" ++ digits ++ ")" = _
    apply String.toList_injective
    simp [Program.stepTerm, Cpp.Term.spelled]

theorem gives_all {top id : NodeId} {axis : Nat} (spot : t.Spot x top id axis)
    (category : t.category id = .all) :
    Gives t x d id (String.ofList (Argument.all.selector x axis).spelled) := by
  refine gives_leaf wf category (fun _ => rfl) nofun (by decide) rfl fun s sees => ?_
  have extents : ∀ k < Cpp.members.length, Rule.axisExtent? k = some (Cpp.members.getD k "") := by
    decide
  refine ⟨⟨.fixed ("m2cpp::uspan(0, " ++ x ++ "." ++ Cpp.members.getD axis "" ++ "-1)"),
    .of ⟨.colvec, .uword⟩, [.use .uspan]⟩, ?_, fun _ _ => ?_⟩
  · unfold Rule.all
    rw [sees.subscripted? wf spot, sees.here, Tree.position?_of_bare sees.bare, spot.position wf,
      Option.bind_some, extents axis spot.bound]
    rfl
  · show "m2cpp::uspan(0, " ++ x ++ "." ++ Cpp.members.getD axis "" ++ "-1)" = _
    have opening : "m2cpp::uspan(0, ".toList
        = "m2cpp".toList ++ (Cpp.uspanTail ++ (['0'] ++ Cpp.comma)) := by decide
    have closing : "-1)".toList = ['-', '1', ')'] := rfl
    apply String.toList_injective
    simp only [String.toList_append, opening, closing, Argument.selector, Program.pred,
      Cpp.Selector.spelled, Cpp.Sum.spelled, Cpp.Term.spelled, String.toList_ofList, List.append_assoc]
    rfl

/-- Bounds and a step in a range give what they stand for. -/
theorem gives_range {top id : NodeId} {axis : Nat} (spot : t.Spot x top id axis)
    (numeric : d.isNumeric) {found : List String} (category : t.category id = .range)
    (children : List.Forall₂ (Gives t x d) (t.children id) found) {text : String}
    (answer : ∀ s, Sees t x d id found s → ∃ o, Rule.rangeOfPositions s = .ok o
      ∧ ∀ n : Node, o.template.render n found = text) :
    Gives t x d id text := by
  refine gives_of_answer wf (by rw [category]; exact ⟨nofun, nofun⟩) children fun s sees => ?_
  obtain ⟨o, ok, renders⟩ := answer s sees
  have positions : Rule.indexesVariable s := by
    rw [Rule.indexesVariable, sees.subscripted? wf spot, Option.bind_some, sees.lookup]
    exact numeric
  rw [sees.select category (by decide) rfl, Rule.range, if_pos positions]
  exact ⟨o, ok, fun n _ => renders n⟩

theorem gives_argument {top id : NodeId} {axis : Nat} (spot : t.Spot x top id axis)
    (numeric : d.isNumeric) {a : Argument} (h : t.IsArgument id a) :
    Gives t x d id (String.ofList (a.text x axis)) := by
  have inside : ∀ {c : NodeId}, t.category id = .range → c ∈ t.children id → t.Inside id c :=
    fun category mem => .step (wf.parent?_of_mem mem) (by rw [category]; decide) .self
  cases h with
  | bound bound => exact gives_bound wf spot .self bound
  | all category => exact gives_all wf spot category
  | @range p q start stop category children first last =>
    have down : ∀ c ∈ [p, q], t.Inside id c := fun c mem => inside category (children ▸ mem)
    have gives := List.Forall₂.cons (gives_bound (d := d) wf spot (down p (by simp)) first)
      (.cons (gives_bound wf spot (down q (by simp)) last) .nil)
    rw [← children] at gives
    refine gives_range wf spot numeric category gives fun s sees => ?_
    have operands := sees.operands
    rw [children] at operands
    refine ⟨_, by rw [Rule.rangeOfPositions, operands]; rfl, fun _ => ?_⟩
    show "arma::span(" ++ Rule.zeroBased _ ++ ", " ++ Rule.zeroBased _ ++ ")" = _
    rw [sees.zeroBased wf first, sees.zeroBased wf last]
    apply String.toList_injective
    simp only [String.toList_append, String.toList_ofList, List.append_assoc]
    rfl
  | @stepped p r q start stop negated step category children first middle last =>
    have down : ∀ c ∈ [p, r, q], t.Inside id c := fun c mem => inside category (children ▸ mem)
    have gives := List.Forall₂.cons (gives_bound (d := d) wf spot (down p (by simp)) first)
      (.cons (gives_step wf middle) (.cons (gives_bound wf spot (down q (by simp)) last) .nil))
    rw [← children] at gives
    refine gives_range wf spot numeric category gives fun s sees => ?_
    have operands := sees.operands
    rw [children] at operands
    refine ⟨_, by rw [Rule.rangeOfPositions, operands]; rfl, fun _ => ?_⟩
    show "m2cpp::uspan(" ++ Rule.zeroBased _ ++ ", " ++ String.ofList _ ++ ", " ++ Rule.zeroBased _ ++ ")" = _
    rw [sees.zeroBased wf first, sees.zeroBased wf last]
    apply String.toList_injective
    simp only [String.toList_append, String.toList_ofList, List.append_assoc]
    rfl

/-- The text of a subscript of a declared variable. -/
theorem gives_subscript {id : NodeId} (subscript : (t.category id).isSubscript)
    (name : (t.node id).name = x) (free : t.category id = .get → Builtin.isReserved x = false)
    (numeric : d.isNumeric)
    {args : List Argument} (arguments : List.Forall₂ t.IsArgument (t.children id) args)
    (few : args.length ≤ Cpp.members.length) :
    Gives t x d id (String.ofList (x.toList
      ++ '(' :: Cpp.spelledArguments (args.mapIdx fun axis a => a.selector x axis))) := by
  have lengths := arguments.length_eq
  have gives : List.Forall₂ (Gives t x d) (t.children id)
      (args.mapIdx fun axis a => String.ofList (a.text x axis)) := by
    refine List.forall₂_iff_get.mpr ⟨by rw [List.length_mapIdx, lengths], fun k lt lt' => ?_⟩
    have lt_args : k < args.length := lengths ▸ lt
    have spot : t.Spot x id ((t.children id).get ⟨k, lt⟩) k :=
      ⟨subscript, name, List.getElem?_eq_getElem lt, Nat.lt_of_lt_of_le lt_args few⟩
    have there := gives_argument (d := d) wf spot numeric
      ((List.forall₂_iff_get.mp arguments).2 k lt lt_args)
    simpa using there
  have inner : t.category id ≠ .block ∧ t.category id ≠ .function := by
    constructor <;> intro eq <;> rw [eq] at subscript <;> cases subscript
  refine gives_of_answer wf inner gives fun s sees => ?_
  have indices : s.operands.map Rule.indexText
      = (args.mapIdx fun axis a => a.selector x axis).map fun a => String.ofList a.spelled := by
    refine List.ext_getElem (by simp [sees.operands, lengths]) fun k lt lt' => ?_
    have lt_args : k < args.length := by simpa using lt'
    have argument := (List.forall₂_iff_get.mp arguments).2 k (lengths ▸ lt_args) lt_args
    simpa [sees.operands] using sees.indexText wf argument k
  have text : ∀ n : Node, (Template.fixed (x ++ "(" ++ Text.joined ", " (s.operands.map Rule.indexText)
      ++ ")")).render n (args.mapIdx fun axis a => String.ofList (a.text x axis))
      = String.ofList (x.toList
        ++ '(' :: Cpp.spelledArguments (args.mapIdx fun axis a => a.selector x axis)) := by
    intro _
    rw [Template.render, indices, String.append_assoc]
    apply String.toList_injective
    rw [String.toList_append, Program.toList_joined, String.toList_append, List.append_assoc]
    exact String.toList_ofList.symm
  have lookup : s.lookup s.name = some d := by
    rw [Site.name, sees.name, name]
    exact sees.lookup
  rw [sees.select_subscript subscript name free, Rule.subscript, lookup]
  dsimp only
  rw [Site.name, sees.name, name]
  split
  · exact ⟨_, rfl, fun n _ => text n⟩
  · exact ⟨_, rfl, fun n _ => text n⟩

end Resolving

/-! ## Parsed trees -/

section Parsed

variable {source : String} {t : Tree} (parsed : Tree.parse source = .ok t)
include parsed

theorem Tree.isName_of_subscript {id : NodeId} (subscript : (t.category id).isSubscript) :
    isName (t.node id).name := by
  refine (Tree.raw_of_parse parsed id).name ?_
  change (t.category id).isNamed
  generalize t.category id = c at subscript
  cases c <;> first | rfl | cases subscript

/-- Resolved by itself, a node gives the text that it always has. -/
theorem Translator.resolve_of_gives {x : String} {d : Datatype} {id : NodeId} {text : String}
    (lt : id < t.size) (gives : Resolving.Gives t x d id text) {translator : Translator}
    (declared : translator.state.config.declarations.get? x = some d) :
    (translator.resolve t id).1 = .ok text := by
  have raw := Tree.raw_of_parse parsed
  obtain ⟨p, accepted, rfl⟩ := Tree.exists_program_of_parse parsed
  obtain ⟨w', run⟩ := gives _ (Resolving.enough_of_lt (Tree.wellFormed_ofProgram accepted) lt)
    ⟨Tree.ofProgram p, translator.state⟩
    ⟨rfl, raw.forall_node (p := fun n => n.redirect.isSome → n.category = .assign) fun _ => nofun,
      declared⟩
  show (Resolving.resolve id ⟨_, translator.state⟩).1 = _
  rw [Resolving.resolve, run]

end Parsed

/-! ## Positions -/

/-- Axes of the shapes whose elements have one position along each of them. -/
def Shape.axes? : Shape → Option Nat
  | .colvec => some 1
  | .matrix => some 2
  | .cube => some 3
  | _ => none

theorem Shape.axes?_bound {s : Shape} {n : Nat} (h : s.axes? = some n) :
    n ≠ 0 ∧ n ≤ Cpp.members.length := by
  cases s with
  | colvec | matrix | cube => cases h; decide
  | unknown | scalar | rowvec => cases h

namespace Translator

/-- With one argument for every axis of a declared variable, the text of a subscript is always
the same, and read as C++ its arguments stand for the positions of the script, counted
from zero, if no zero is in front of the literals that are emitted as they are written. -/
theorem subscript_positions {source : String} {t : Tree} (parsed : Tree.parse source = .ok t)
    {id : NodeId} (subscript : (t.category id).isSubscript) {d : Datatype} (numeric : d.isNumeric)
    (free : Builtin.isReserved (t.node id).name = false) {args : List Argument}
    (arguments : List.Forall₂ t.IsArgument (t.children id) args)
    (axes : d.shape.axes? = some args.length) (plain : ∀ a ∈ args, a.Plain) :
    let x := (t.node id).name
    ∃ text selectors, Resolving.Gives t x d id text
      ∧ (∀ translator : Translator, translator.state.config.declarations.get? x = some d →
        (translator.resolve t id).1 = .ok text)
      ∧ Cpp.readSubscript? text = some (x, selectors)
      ∧ ∀ extents, selectors.map (·.positions? extents)
        = args.mapIdx fun axis a => some ((a.positions (extents x axis)).map (· - 1)) := by
  intro x
  have wf := Tree.wellFormed_of_parsed parsed
  obtain ⟨nonempty, few⟩ := Shape.axes?_bound axes
  have gives := Resolving.gives_subscript wf subscript rfl (fun _ => free) numeric arguments few
  have lt : id < t.size := Tree.lt_size_of_category rfl fun block => by
    rw [block] at subscript
    cases subscript
  have name : isName x := Tree.isName_of_subscript parsed subscript
  have spelled : ∀ a ∈ args, a.Spelled :=
    ((List.forall₂_and_left _ _).mp (arguments.imp fun _ _ h => ⟨h.spelled wf, h⟩).flip).1
  refine ⟨_, args.mapIdx fun axis a => a.selector x axis, gives,
    fun _ declared => Translator.resolve_of_gives parsed lt gives declared,
    Cpp.readSubscript?_spelled name ?_ ?_ String.toList_ofList, fun extents => ?_⟩
  · intro none
    exact nonempty (by simpa using congrArg List.length none)
  · intro selector mem
    obtain ⟨axis, bound, rfl⟩ := List.mem_mapIdx.mp mem
    exact Program.canonical_selector name (Nat.lt_of_lt_of_le bound few)
      (spelled _ (List.getElem_mem bound))
  · refine List.ext_getElem (by simp) fun k lt lt' => ?_
    have bound : k < args.length := by simpa using lt
    have mem := List.getElem_mem bound
    have positions : (args[k].selector x k).positions? extents
        = some ((args[k].positions (extents x k)).map (· - 1)) :=
      Program.positions?_selector (spelled _ mem) (plain _ mem)
    simpa using positions

/-- Every other of the last positions, and a literal that is folded in spite of its zero. -/
theorem subscript_positions_matrix : ∃ t, Tree.parse "y = A(end:-2:end-4, 07)\n" = .ok t
    ∧ (t.node 1).name = "A"
    ∧ let args : List Argument :=
        [.stepped .last true "2" (.shifted .minus .last "4"), .bound (.literal "07")]
      ∃ text selectors, Resolving.Gives t "A" ⟨.matrix, .float⟩ 1 text
        ∧ (∀ translator : Translator,
          translator.state.config.declarations.get? "A" = some ⟨.matrix, .float⟩ →
          (translator.resolve t 1).1 = .ok text)
        ∧ Cpp.readSubscript? text = some ("A", selectors)
        ∧ ∀ extents, selectors.map (·.positions? extents)
          = args.mapIdx fun axis a => some ((a.positions (extents "A" axis)).map (· - 1)) := by
  have parses : ∃ t, Tree.parse "y = A(end:-2:end-4, 07)\n" = .ok t
      ∧ (t.node 1).name = "A" ∧ t.category 1 = .get ∧ t.children 1 = [8, 9]
      ∧ (t.category 8 = .range ∧ t.children 8 = [2, 4, 7]) ∧ t.category 2 = .last
      ∧ (t.category 4 = .neg ∧ t.children 4 = [3] ∧ t.IsInteger 3 "2")
      ∧ (t.category 7 = .sub ∧ t.children 7 = [5, 6] ∧ t.category 5 = .last ∧ t.IsInteger 6 "4")
      ∧ t.IsInteger 9 "07" := ⟨_, by cbv, by decide⟩
  obtain ⟨t, run, name, get, children, ⟨range, ends⟩, first, ⟨neg, operand, step⟩,
    ⟨sub, shift, last, four⟩, seven⟩ := parses
  have stop : t.IsBound 7 (.shifted .minus .last "4") :=
    Tree.IsBound.chain (b := .last) sub shift (.last last) (.cons four .nil)
  have arguments : List.Forall₂ t.IsArgument (t.children 1)
      [.stepped .last true "2" (.shifted .minus .last "4"), .bound (.literal "07")] := by
    rw [children]
    exact .cons (.stepped range ends (.last first) (.negated neg operand step) stop)
      (.cons (.bound (.literal seven)) .nil)
  have found := subscript_positions (d := ⟨.matrix, .float⟩) run (by rw [get]; rfl) rfl
    (by rw [name]; decide) arguments rfl (by decide)
  rw [name] at found
  exact ⟨t, run, name, found⟩

/-- A literal with a zero in front is emitted as it is written, and is an octal number then. -/
theorem subscript_positions_octal : ∃ t, Tree.parse "y = A(end-010)\n" = .ok t
    ∧ t.children 1 = [4] ∧ t.IsArgument 4 (.bound (.shifted .minus .last "010"))
    ∧ ((⟨.ofConfig { declarations := ⟨[("A", ⟨.colvec, .float⟩)]⟩ }⟩ : Translator).resolve t 1).1
      = .ok "A(A.n_rows-010-1)"
    ∧ ∃ selector, Cpp.readSubscript? "A(A.n_rows-010-1)" = some ("A", [selector])
      ∧ selector.positions? (fun _ _ => 20) = some [11]
      ∧ (Argument.bound (.shifted .minus .last "010")).positions 20 = [10] := by
  have parses : ∃ t, Tree.parse "y = A(end-010)\n" = .ok t ∧ t.children 1 = [4]
      ∧ (t.category 4 = .sub ∧ t.children 4 = [2, 3] ∧ t.category 2 = .last ∧ t.IsInteger 3 "010")
      ∧ ((⟨.ofConfig { declarations := ⟨[("A", ⟨.colvec, .float⟩)]⟩ }⟩ : Translator).resolve t 1).1
        = .ok "A(A.n_rows-010-1)" := ⟨_, by cbv, by decide, by decide, by decide +kernel⟩
  obtain ⟨t, run, children, ⟨sub, operands, last, ten⟩, emitted⟩ := parses
  refine ⟨t, run, children, .bound ?_, emitted,
    .point (.shifted .minus (.shifted .minus (.term (.extent "A" 0)) (.numeral ['0', '1', '0']))
      (.numeral ['1'])), by decide +kernel, by decide, by decide⟩
  have bound : t.IsBound 4 (Bound.last.chain .minus ["010"]) :=
    .chain sub operands (.last last) (.cons ten .nil)
  exact bound

end Translator

end MatrixScript
