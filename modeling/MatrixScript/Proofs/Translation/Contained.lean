/-
# `Proofs.Translation.Contained` — a statement that fails fails alone

A `Visit` is the turn of a statement in a translation.  Every statement of a block has its
turn, whatever becomes of those before it (`Visit.ofBlock`).  It fails exactly if the
program says so (`Resolving.fails_resolveWithin`), since of all rules only those of
assignments fail.  Then nothing is left of it but a comment and one error at its node: what
its parts report is at nodes below, and nothing else reports there (`Visit.Held`).  A
function does not fail with the statements in its body (`Visit.Held.contains`).
-/
import MatrixScript.Proofs.Rule.Refusal
import MatrixScript.Proofs.Translation.Function
import MatrixScript.Proofs.Translation.Shared

namespace MatrixScript

open Text

variable {t : Tree}

theorem State.diagnostics_popScope (s : State) : s.popScope.diagnostics = s.diagnostics := by
  unfold popScope
  split
  · rfl
  · rfl

/-- What a statement fails with is an error, not a warning. -/
theorem Error.severity_problem (e : Error) : e.problem.severity = .error := by
  cases e <;> rfl

/-- Nothing that is inferred matters for whether a statement can be translated. -/
theorem Tree.Refused.of_bare {t' : Tree} (same : t'.bare = t.bare) {id : NodeId} (h : t.Refused id) :
    t'.Refused id := by
  have category := category_of_bare same
  have children := children_of_bare same
  have name := name_of_bare same
  cases h with
  | reserved assign ids reserved =>
    exact .reserved (by rwa [category]) (by rwa [children]) (by rwa [name])
  | someReserved assigns ids mem reserved =>
    exact .someReserved (by rwa [category]) (by rwa [children]) mem (by rwa [name])
  | size assigns ids get size wrong =>
    exact .size (by rwa [category]) (by rwa [children]) (by rwa [category]) (by rwa [name])
      (by rwa [children])
  | extremum assigns ids get name' wrong =>
    exact .extremum (by rwa [category]) (by rwa [children]) (by rwa [category]) (by rwa [name])
      (by rwa [children])

namespace Tree.WellFormed

/-- Assignments stand in blocks only. -/
theorem not_refused_child (wf : t.WellFormed) {id c : NodeId} (block : t.category id ≠ .block)
    (mem : c ∈ t.children id) : ¬t.Refused c := by
  intro refused
  have lt : id < t.size := wf.parent_lt (wf.parent?_of_mem mem)
  have other : t.category c ≠ .assign ∧ t.category c ≠ .assigns := by
    by_cases function : t.category id = .function
    case pos =>
      obtain ⟨x, y, z, ids, params, returns, body⟩ := wf.children_function lt function
      have kinds : t.category c ∈ [Category.params, .returns, .block] := by
        have there := List.mem_map_of_mem (f := t.category) mem
        rwa [ids, List.map_cons, List.map_cons, List.map_cons, params, returns, body] at there
      constructor <;> intro kind <;> rw [kind] at kinds <;> exact absurd kinds (by decide)
    case neg =>
      have inline := wf.isInline_child block function mem
      constructor <;> intro kind <;> rw [kind] at inline <;> cases inline
  exact refused.category.elim other.1 other.2

end Tree.WellFormed

namespace Resolving

/-- What is resolved is resolved after its children, if in a scope of its own; but for blocks. -/
theorem exists_node (depth : Nat) {id : NodeId} {w : Workspace}
    (block : (w.tree.node id).category ≠ .block) : ∃ v : Workspace, v.tree = w.tree
      ∧ v.state.diagnostics = w.state.diagnostics
      ∧ (resolveWithin (depth + 1) id w).1 = (node (resolveWithin depth) id v).1
      ∧ (resolveWithin (depth + 1) id w).2.state.diagnostics
        = (node (resolveWithin depth) id v).2.state.diagnostics := by
  unfold resolveWithin
  split
  case h_1 kind => exact absurd kind block
  case h_2 => exact ⟨{ w with state := w.state.pushScope }, rfl, rfl, rfl, State.diagnostics_popScope _⟩
  case h_3 => exact ⟨w, rfl, rfl, rfl, rfl⟩

/-- Nodes that do not fail give a text each. -/
theorem exists_texts {resolve : NodeId → Resolving String} : ∀ {ids : List NodeId} {w : Workspace},
    (∀ i ∈ ids, Steady t i (resolve i)) →
    (∀ i ∈ ids, ∀ w : Workspace, w.tree.bare = t.bare → w.tree.Lawful → ¬Fails (resolve i w).1) →
    w.tree.bare = t.bare → w.tree.Lawful → ∃ found, (texts resolve ids w).1 = .ok found
  | [], w, _, _, _, _ => ⟨[], rfl⟩
  | i :: ids, w, steady, safe, same, lawful => by
    obtain ⟨steadyHere, steadyThere⟩ := List.forall_mem_cons.mp steady
    obtain ⟨safeHere, safeThere⟩ := List.forall_mem_cons.mp safe
    have leads := steadyHere.leads w same lawful
    have fine := safeHere w same lawful
    cases result : resolve i w with
    | mk answer w₁ =>
      rw [result] at leads fine
      cases answer with
      | error e => exact absurd ⟨e, rfl⟩ fine
      | ok text =>
        obtain ⟨found, rest⟩ := exists_texts (w := w₁) steadyThere safeThere (leads.bare.trans same)
          (leads.lawful lawful)
        exact ⟨text :: found, by rw [texts_of_ok result, rest]; rfl⟩

end Resolving

/-! ## Which nodes fail -/

section Fails

variable (wf : t.WellFormed) {top p : NodeId} {c : Category} (up : t.parent? top = some p)
  (crown : t.Crown p c)
include wf up crown

/-- The rule of a node fails if the node is an assignment that cannot be translated. -/
theorem Workspace.fails_answer {w : Workspace} (same : w.tree.bare = t.bare) (lawful : w.tree.Lawful)
    {id : NodeId} (below : t.Below top id) (lt : id < t.size) {texts : List String}
    (lengths : texts.length = (t.children id).length) :
    Fails ((w.seed id).answer id texts) ↔ t.Refused id := by
  have same' : (w.seed id).tree.bare = t.bare := (w.bare_seed id).trans same
  have lawful' : (w.seed id).tree.Lawful := (leads_seed (P := fun _ => True) w id).lawful lawful
  have lengths' : texts.length = ((w.seed id).tree.children id).length := by
    rwa [Tree.children_of_bare same']
  have sound : ((w.seed id).site id texts).Sound :=
    sound_site (wf.of_bare same') (by rwa [Tree.size_of_bare same']) lengths'
  have refused : t.Refused id ↔ (w.seed id).tree.Refused id :=
    ⟨.of_bare same', .of_bare same'.symm⟩
  rw [refused]
  by_cases assign : (w.seed id).tree.category id = .assign
  · exact Rule.fails_select_assign sound ((w.seed id).ids_site lengths') assign
      fun b redirect => (lawful'.redirected id b redirect).1
  by_cases assigns : (w.seed id).tree.category id = .assigns
  · exact Rule.fails_select_assigns sound ((w.seed id).ids_site lengths') assigns
      (lawful'.redirect_eq_none assign)
  -- no other rule fails: a rule that does can only have read past the operands
  refine iff_of_false ?_ fun refused => refused.category.elim assign assigns
  rintro ⟨e, error⟩
  have twins := Rule.select_twin (twin_site (twin_seed (twin_self wf up crown same) ⟨rfl, below⟩) wf wf
    ⟨rfl, below⟩ (rfl : texts.length = texts.length))
  have answers := Rule.select_answers sound
  rw [show Rule.select ((w.seed id).site id texts).tree ((w.seed id).site id texts).node
    ((w.seed id).site id texts) = .error e from error] at twins answers
  cases twins with
  | fails fault =>
    rcases fault with malformed | kind | kind
    · exact answers malformed
    · exact assign kind
    · exact assigns kind

namespace Resolving

omit wf up crown in
theorem fails_applyRule (id : NodeId) (found : List String) (w : Workspace) :
    Fails (applyRule id found w).1 ↔ Fails ((w.seed id).answer id found) := by
  unfold applyRule Workspace.answer
  dsimp only
  split
  case h_1 error => rw [error]; exact iff_of_true (fails_error _) (fails_error _)
  case h_2 ok => rw [ok]; exact iff_of_false (not_fails_ok _) (not_fails_ok _)

/-- A node fails if it is an assignment that cannot be translated. -/
theorem fails_resolveWithin (depth : Nat) : ∀ {id : NodeId} {w : Workspace}, t.Below top id →
    id < t.size → Enough t depth id → w.tree.bare = t.bare → w.tree.Lawful →
    (Fails (resolveWithin depth id w).1 ↔ t.Refused id) := by
  induction depth with
  | zero =>
    intro id w _ _ enough
    obtain ⟨d, eq⟩ := enough.exists_succ
    cases eq
  | succ depth ih =>
    intro id w below lt enough same lawful
    have category : (w.tree.node id).category = t.category id :=
      congrFun (Tree.category_of_bare same) id
    by_cases block : t.category id = .block
    case pos =>
      have kind : ¬t.Refused id := fun refused => by
        rcases refused.category with kind | kind <;> rw [block] at kind <;> cases kind
      refine iff_of_false ?_ kind
      unfold resolveWithin
      rw [category, block]
      exact not_fails_ok _
    case neg =>
      obtain ⟨v, tree, -, answer, -⟩ := exists_node depth (category ▸ block)
      rw [← tree] at same lawful
      have steady : ∀ c ∈ t.children id, Steady t c (resolveWithin depth c) := fun c mem =>
        steady_resolveWithin wf depth (wf.bound id c mem)
      obtain ⟨found, texts⟩ := exists_texts steady (fun c mem w same lawful fails =>
        wf.not_refused_child block mem ((ih (below.trans (wf.below_of_mem mem)) (wf.bound id c mem)
          (enough.child wf mem) same lawful).mp fails)) same lawful
      have leads := (steady_texts steady same lawful).1
      rw [answer]
      unfold node
      rw [Tree.children_of_bare same]
      cases result : Resolving.texts (resolveWithin depth) (t.children id) v with
      | mk answers w₁ =>
      rw [result] at texts leads
      obtain rfl : answers = .ok found := texts
      dsimp only
      rw [fails_applyRule]
      exact Workspace.fails_answer wf up crown (leads.bare.trans same) (leads.lawful lawful) below lt
        (length_of_texts result)

end Resolving

end Fails

namespace Resolving

open Workspace

section

variable (wf : t.WellFormed)
include wf

/-- A statement that is translated has a text. -/
theorem filled_resolveWithin {depth : Nat} {id : NodeId} (lt : id < t.size)
    (statement : (t.category id).isStatement) {w after : Workspace} (same : w.tree.bare = t.bare)
    (lawful : w.tree.Lawful) {text : String}
    (run : resolveWithin depth id w = (.ok text, after)) : text ≠ "" := by
  cases depth with
  | zero => cases run
  | succ depth =>
    have block : (w.tree.node id).category ≠ .block := by
      rw [show (w.tree.node id).category = t.category id from congrFun (Tree.category_of_bare same) id]
      intro block
      rw [block] at statement
      cases statement
    obtain ⟨v, tree, -, answer, -⟩ := exists_node depth block
    rw [← tree] at same lawful
    have steady : ∀ c ∈ t.children id, Steady t c (resolveWithin depth c) := fun c mem =>
      steady_resolveWithin wf depth (wf.bound id c mem)
    have leads := (steady_texts steady same lawful).1
    rw [run] at answer
    unfold node at answer
    rw [Tree.children_of_bare same] at answer
    cases result : texts (resolveWithin depth) (t.children id) v with
    | mk answers w₁ =>
    rw [result] at leads answer
    cases answers with
    | error e => cases answer
    | ok found =>
      have same' : (w₁.seed id).tree.bare = t.bare := (w₁.bare_seed id).trans (leads.bare.trans same)
      have lengths : found.length = ((w₁.seed id).tree.children id).length := by
        rw [length_of_texts result, Tree.children_of_bare same']
      have sound : ((w₁.seed id).site id found).Sound :=
        sound_site (wf.of_bare same') (by rwa [Tree.size_of_bare same']) lengths
      have kind : ((w₁.seed id).site id found).node.category.isStatement := by
        show ((w₁.seed id).tree.category id).isStatement
        rwa [Tree.category_of_bare same']
      dsimp only at answer
      unfold applyRule at answer
      dsimp only at answer
      split at answer
      case h_1 => cases answer
      case h_2 o ok =>
        cases answer
        rw [textOf_eq _ lengths]
        exact Rule.filled_select sound kind o ok

/-- A statement that fails reports nothing itself; what is reported is reported by its parts. -/
theorem unreported_of_error {depth : Nat} {id : NodeId} (block : t.category id ≠ .block)
    {w after : Workspace} (same : w.tree.bare = t.bare) (lawful : w.tree.Lawful) {e : Error}
    (run : resolveWithin depth id w = (.error e, after))
    (free : ∀ d ∈ w.state.diagnostics, d.node ≠ id) : ∀ d ∈ after.state.diagnostics, d.node ≠ id := by
  cases depth with
  | zero =>
    cases run
    exact free
  | succ depth =>
    have category : (w.tree.node id).category = t.category id :=
      congrFun (Tree.category_of_bare same) id
    obtain ⟨v, tree, before, answer, left⟩ := exists_node depth (category ▸ block)
    rw [← tree] at same lawful
    rw [run] at answer left
    rw [← before] at free
    have steady : ∀ c ∈ t.children id, Steady t c (resolveWithin depth c) := fun c mem =>
      steady_resolveWithin wf depth (wf.bound id c mem)
    have leads := (steady_texts steady same lawful).1
    unfold node at answer left
    rw [Tree.children_of_bare same] at answer left
    -- whether a child fails or the rule does, the state is what the children leave
    have state : after.state.diagnostics
        = (texts (resolveWithin depth) (t.children id) v).2.state.diagnostics := by
      cases result : texts (resolveWithin depth) (t.children id) v with
      | mk answers w₁ =>
      rw [result] at answer left
      cases answers with
      | error e' => exact left
      | ok found =>
        dsimp only at answer left
        unfold applyRule at answer left
        dsimp only at answer left
        split at answer
        case h_1 error =>
          rw [error] at left
          exact left
        case h_2 => cases answer
    obtain ⟨new, eq, reached⟩ := leads.reports
    rw [state, eq]
    refine List.forall_mem_append.mpr ⟨free, fun d mem own => ?_⟩
    obtain ⟨j, ⟨c, child, below⟩, reaches⟩ := reached d mem
    unfold Tree.Reaches at reaches
    rw [Tree.children_of_bare same] at reaches
    exact wf.not_below_child child (own ▸ below.reaches wf reaches)

end

end Resolving

/-! ## Visits -/

open Resolving

/-- A statement that is translated: how deep, and what is there when its turn comes. -/
structure Visit where
  statement : NodeId
  depth : Nat
  found : Workspace

namespace Visit

/-- What resolving the statement gives. -/
def answer (v : Visit) : Except Error String :=
  (resolveWithin v.depth v.statement { v.found with state := v.found.state.withPending [] }).1

/-- The lines that the statement contributes. -/
def lines (v : Visit) : List String := (statementLines (resolveWithin v.depth) v.statement v.found).1

/-- What is there when the statement is done. -/
def left (v : Visit) : Workspace := (statementLines (resolveWithin v.depth) v.statement v.found).2

/-- The statements of a block, in the order in which they are translated. -/
def ofBlock (depth : Nat) : List NodeId → Workspace → List Visit
  | [], _ => []
  | id :: ids, w => ⟨id, depth, w⟩ :: ofBlock depth ids (left ⟨id, depth, w⟩)

/-- The statements in the body of a function. -/
def inner (v : Visit) : List Visit :=
  match v.depth with
  | depth + 2 =>
      match body? (resolveWithin (depth + 1)) v.statement v.found with
      | some (start, ids) => ofBlock depth ids start
      | none => []
  | _ => []

/-- The statements at the top level of a program. -/
def ofRoot (w : Workspace) : List Visit :=
  match w.tree.root with
  | none => []
  | some root => ofBlock (w.tree.size + 1) (w.tree.children root) w

theorem statements_ofBlock (depth : Nat) : ∀ (ids : List NodeId) (w : Workspace),
    (ofBlock depth ids w).map (·.statement) = ids
  | [], _ => rfl
  | id :: ids, _ => congrArg (id :: ·) (statements_ofBlock depth ids _)

theorem lines_ofBlock (depth : Nat) : ∀ (ids : List NodeId) (w : Workspace),
    (ofBlock depth ids w).flatMap (·.lines) = (blockLines (resolveWithin depth) ids w).1
  | [], _ => rfl
  | id :: ids, w => by
    rw [ofBlock, List.flatMap_cons, lines_ofBlock depth ids]
    rfl

/-- The statement of a block, with nothing below it reported before its turn, and `last` holds
what is reported in the end. -/
structure Held (t : Tree) (block : NodeId) (depth : Nat) (last : List Diagnostic) (v : Visit) :
    Prop where
  depth : v.depth = depth
  mem : v.statement ∈ t.children block
  bare : v.found.tree.bare = t.bare
  lawful : v.found.tree.Lawful
  unreported : ∀ d ∈ v.found.state.diagnostics, ¬t.Below v.statement d.node
  later : ∀ i, t.Below v.statement i →
    last.filter (·.node = i) = v.left.state.diagnostics.filter (·.node = i)

end Visit

namespace Workspace

variable {w w' : Workspace} {P : NodeId → Prop} {top : NodeId}

/-- Nothing is reported below a node that no rule reaches. -/
theorem Leads.unreported (leads : w.Leads P w') (apart : ∀ j i, P j → w.tree.Reaches j i → ¬t.Below top i)
    (free : ∀ d ∈ w.state.diagnostics, ¬t.Below top d.node) :
    ∀ d ∈ w'.state.diagnostics, ¬t.Below top d.node := by
  obtain ⟨new, eq, reached⟩ := leads.reports
  rw [eq]
  refine List.forall_mem_append.mpr ⟨free, fun d mem => ?_⟩
  obtain ⟨j, hj, reaches⟩ := reached d mem
  exact apart j d.node hj reaches

/-- What is reported there before stays what is reported there. -/
theorem Leads.filter_diagnostics (leads : w.Leads P w')
    (apart : ∀ j i, P j → w.tree.Reaches j i → ¬t.Below top i) {i : NodeId} (below : t.Below top i) :
    w'.state.diagnostics.filter (·.node = i) = w.state.diagnostics.filter (·.node = i) := by
  obtain ⟨new, eq, reached⟩ := leads.reports
  have none : new.filter (·.node = i) = [] := by
    refine List.filter_eq_nil_iff.mpr fun d mem own => ?_
    obtain ⟨j, hj, reaches⟩ := reached d mem
    exact apart j i hj (of_decide_eq_true own ▸ reaches) below
  rw [eq, List.filter_append, none, List.append_nil]

end Workspace

namespace Visit

section

variable (wf : t.WellFormed) {block : NodeId}
include wf

/-- What is below other statements of the block is not below this one. -/
theorem apart_of_mem {c : NodeId} (mem : c ∈ t.children block) {others : List NodeId}
    (sub : others ⊆ t.children block) (other : c ∉ others) {w : Workspace} (same : w.tree.bare = t.bare) :
    ∀ j i, (∃ c' ∈ others, t.Below c' j) → w.tree.Reaches j i → ¬t.Below c i := by
  rintro j i ⟨c', mem', below⟩ reaches here
  unfold Tree.Reaches at reaches
  rw [Tree.children_of_bare same] at reaches
  obtain rfl := wf.apart (wf.parent?_of_mem mem) (wf.parent?_of_mem (sub mem')) here
    (below.reaches wf reaches)
  exact other mem'

theorem held_ofBlock (depth : Nat) : ∀ {ids : List NodeId} {w : Workspace}, ids ⊆ t.children block →
    ids.Nodup → w.tree.bare = t.bare → w.tree.Lawful →
    (∀ c ∈ ids, ∀ d ∈ w.state.diagnostics, ¬t.Below c d.node) →
    ∀ v ∈ ofBlock depth ids w, v.Held t block depth
      (blockLines (resolveWithin depth) ids w).2.state.diagnostics
  | [], _, _, _, _, _, _ => nofun
  | c :: ids, w, sub, nodup, same, lawful, free => by
    obtain ⟨mem, sub'⟩ := List.cons_subset.mp sub
    obtain ⟨other, nodup'⟩ := List.nodup_cons.mp nodup
    obtain ⟨freeHere, freeThere⟩ := List.forall_mem_cons.mp free
    have first := leads_statementLines (steady_resolveWithin wf depth (wf.bound block c mem)) same lawful
    have same' := first.bare.trans same
    have rest := leads_blockLines (fun c' mem' => steady_resolveWithin wf depth
      (wf.bound block c' (sub' mem'))) same' (first.lawful lawful)
    refine List.forall_mem_cons.mpr ⟨⟨rfl, mem, same, lawful, freeHere, fun i below => ?_⟩, ?_⟩
    · exact rest.filter_diagnostics (apart_of_mem wf mem sub' other same') below
    · refine held_ofBlock depth sub' nodup' same' (first.lawful lawful) fun c' mem' => ?_
      refine (first.mono fun j below => ⟨c, List.mem_singleton_self c, below⟩).unreported
        (apart_of_mem wf (sub' mem') (List.cons_subset.mpr ⟨mem, List.nil_subset _⟩) ?_ same) (freeThere c' mem')
      exact fun eq => other (List.mem_singleton.mp eq ▸ mem')

end

/-! ## What becomes of a statement -/

/-- The statement fails if it cannot be translated; then it leaves one line and, of all that is
reported in the end, one error at its node.  Else it leaves lines. -/
structure Contained (t : Tree) (reported : List Diagnostic) (v : Visit) : Prop where
  fails : Fails v.answer ↔ t.Refused v.statement
  failed : ∀ e, v.answer = .error e → v.lines = [failureLine e]
    ∧ reported.filter (·.node = v.statement) = [.ofNode t v.statement e.problem e.message]
    ∧ e.problem.severity = .error
  translated : ∀ text, v.answer = .ok text → v.lines ≠ []

theorem Held.contained (wf : t.WellFormed) {block : NodeId} (kind : t.category block = .block)
    {depth : Nat} {last : List Diagnostic} {v : Visit} (held : v.Held t block depth last)
    (enough : Enough t depth v.statement) : v.Contained t last := by
  obtain ⟨id, depth', w⟩ := v
  obtain ⟨rfl, mem, same, lawful, unreported, later⟩ := held
  have lt : id < t.size := wf.bound block id mem
  have statement : (t.category id).isStatement := wf.isStatement_child kind mem
  refine ⟨?_, fun e error => ?_, fun text ok => ?_⟩
  · exact fails_resolveWithin wf (wf.parent?_of_mem mem) (.block kind) depth' (t.below_self id) lt enough
      same lawful
  · have kept := keeps_resolveWithin depth' id { w with state := w.state.withPending [] }
    have block : t.category id ≠ .block := by
      intro block
      rw [block] at statement
      cases statement
    have own := later id (t.below_self id)
    unfold left statementLines at own
    unfold lines statementLines
    unfold answer at error
    dsimp only at error own kept ⊢
    cases run : resolveWithin depth' id { w with state := w.state.withPending [] } with
    | mk result after =>
    rw [run] at error own kept
    obtain rfl : result = .error e := error
    have free := unreported_of_error wf block (w := { w with state := w.state.withPending [] })
      same lawful run fun d mem own =>
      unreported d mem (own ▸ t.below_self id)
    refine ⟨rfl, own.trans ?_, e.severity_problem⟩
    have none : after.state.diagnostics.filter (·.node = id) = [] :=
      List.filter_eq_nil_iff.mpr fun d mem own => free d mem (of_decide_eq_true own)
    have node : Diagnostic.ofNode after.tree id e.problem e.message = .ofNode t id e.problem e.message := by
      have same' := kept.trans same
      rw [Diagnostic.ofNode, Tree.field_of_bare same' Node.category fun _ => rfl,
        Tree.field_of_bare same' Node.label fun _ => rfl, Diagnostic.ofNode]
    show (Diagnostic.report after.state.diagnostics _).filter _ = _
    rw [node, Diagnostic.report, if_neg fun mem => free _ mem rfl, List.filter_append, none]
    simp [Diagnostic.ofNode]
  · unfold lines statementLines
    unfold answer at ok
    dsimp only at ok ⊢
    cases run : resolveWithin depth' id { w with state := w.state.withPending [] } with
    | mk result after =>
    rw [run] at ok
    obtain rfl : result = .ok text := ok
    have filled := filled_resolveWithin wf lt statement
      (w := { w with state := w.state.withPending [] }) same lawful run
    exact fun none => lines_ne_nil filled (List.append_eq_nil_iff.mp none).2

/-! ### The body of a function -/

/-- The function does not fail.  Its text holds the lines that the statements in its body
contribute one after the other, and what becomes of those is seen in the end. -/
structure Contains (t : Tree) (reported : List Diagnostic) (body : NodeId) (v : Visit) : Prop where
  statements : v.inner.map (·.statement) = t.children body
  answer : ∃ head back, v.answer = .ok (Text.joined "\n" (head :: "\x7b"
    :: (Text.lines (Text.joined "\n" (v.inner.flatMap (·.lines))) ++ back) ++ ["\x7d"]))
  contained : ∀ v' ∈ v.inner, v'.Contained t reported

theorem Held.contains (wf : t.WellFormed) {block : NodeId} (kind : t.category block = .block)
    {depth : Nat} {last : List Diagnostic} {v : Visit} (held : v.Held t block depth last)
    (enough : Enough t depth v.statement) (function : t.category v.statement = .function) {p r b : NodeId}
    (ids : t.children v.statement = [p, r, b]) : v.Contains t last b := by
  obtain ⟨id, depth', w⟩ := v
  obtain ⟨rfl, mem, same, lawful, unreported, later⟩ := held
  have lt : id < t.size := wf.bound block id mem
  obtain ⟨p', r', b', ids', params, returns, body⟩ := wf.children_function lt function
  obtain ⟨rfl, rfl, rfl⟩ : p = p' ∧ r = r' ∧ b = b' := by simpa using ids.symm.trans ids'
  -- parameters, outputs and body do not fail, and are not too deep
  obtain ⟨depth, rfl⟩ := enough.exists_succ
  have child : ∀ c ∈ [p, r, b], c ∈ t.children id := fun c mem => by rwa [ids]
  have within := fun c mem => enough.child wf (child c mem)
  obtain ⟨depth, rfl⟩ := (within b (by simp)).exists_succ
  have safe : ∀ c ∈ [p, r], ∀ w : Workspace, w.tree.bare = t.bare → w.tree.Lawful →
      ¬Fails (resolveWithin (depth + 1) c w).1 := by
    intro c sub w same lawful fails
    have there := child c (List.mem_append_left [b] sub)
    have refused := (fails_resolveWithin wf (wf.parent?_of_mem mem) (.block kind) (depth + 1)
      (wf.below_of_mem there) (wf.bound id c there) (within c (List.mem_append_left [b] sub)) same
      lawful).mp fails
    exact wf.not_refused_child (by rw [function]; nofun) there refused
  have steady : ∀ c ∈ [p, r], Steady t c (resolveWithin (depth + 1) c) := fun c sub =>
    steady_resolveWithin wf (depth + 1) (wf.bound id c (child c (List.mem_append_left [b] sub)))
  let opened : Workspace := { w with state := (w.state.withPending []).pushScope }
  obtain ⟨found, texts⟩ := exists_texts (w := opened) steady safe same lawful
  have leads := (steady_texts (w := opened) steady same lawful).1
  cases heads : Resolving.texts (resolveWithin (depth + 1)) [p, r] opened with
  | mk answers start =>
  rw [heads] at texts leads
  obtain rfl : answers = .ok found := texts
  have same' := leads.bare.trans same
  have lawful' := leads.lawful lawful
  obtain ⟨head, back, after, run, state, -, -⟩ := exists_functionRun wf (L := .same)
    ⟨fun _ _ => trivial, fun _ _ _ _ => trivial⟩ lt function ids params returns body same heads same'
    lawful'
  -- the statements of the body start when nothing below them is reported
  have inside : inner ⟨id, depth + 2, w⟩ = ofBlock depth (t.children b) start := by
    unfold inner
    dsimp only
    rw [body?_of_function same function ids, show Resolving.texts _ _ _ = _ from heads]
  have fresh : ∀ d ∈ start.state.diagnostics, ¬t.Below b d.node := by
    have nodup := wf.nodup_children id
    rw [ids] at nodup
    refine leads.unreported (apart_of_mem wf (child b (by simp))
      (List.Subset.trans (List.subset_append_left [p, r] [b]) child) ?_ same) fun d mem below => ?_
    · intro there
      rw [show [p, r, b] = [p, r] ++ [b] from rfl, List.nodup_append] at nodup
      exact nodup.2.2 b there b (by simp) rfl
    · exact unreported d mem ((wf.below_of_mem (child b (by simp))).trans below)
  have helds := held_ofBlock wf depth (List.Subset.refl (t.children b))
    (wf.nodup_children b) same' lawful' fun c mem d there below =>
      fresh d there ((wf.below_of_mem mem).trans below)
  have ended : (left ⟨id, depth + 2, w⟩).state.diagnostics
      = (blockLines (resolveWithin depth) (t.children b) start).2.state.diagnostics := by
    unfold left statementLines
    dsimp only
    rw [run]
    exact (congrArg State.diagnostics state).trans (State.diagnostics_popScope _)
  refine ⟨?_, ⟨head, back, ?_⟩, ?_⟩
  · rw [inside, statements_ofBlock]
  · rw [inside, lines_ofBlock]
    exact congrArg Prod.fst run
  · rw [inside]
    intro v' there
    have held := helds v' there
    have whole : v'.Held t b depth last :=
      { held with
        later := fun i below => by
          have under := (wf.below_of_mem (child b (by simp))).trans
            ((wf.below_of_mem held.mem).trans below)
          rw [later i under, ended, held.later i below] }
    exact whole.contained wf body ((within b (by simp)).child wf held.mem)

end Visit

namespace Translator

/-- Whatever fails in a program fails alone: every statement at the top level and in the bodies
of functions is translated in its turn, and an error leaves one comment and one problem. -/
theorem failures_contained {source : String} {t : Tree} (parsed : Tree.parse source = .ok t)
    (config : Config) :
    let visits := Visit.ofRoot ⟨t, .ofConfig config⟩
    let unit := ((⟨.ofConfig config⟩ : Translator).translate t).1
    (∃ root, t.root = some root ∧ visits.map (·.statement) = t.children root)
      ∧ unit.statements = visits.flatMap (·.lines)
      ∧ ∀ v ∈ visits, v.Contained t unit.diagnostics
        ∧ ∀ params returns body, t.category v.statement = .function →
          t.children v.statement = [params, returns, body] → v.Contains t unit.diagnostics body := by
  intro visits unit
  have wf := Tree.wellFormed_of_parsed parsed
  have lawful := (Tree.raw_of_parse parsed).lawful
  obtain ⟨root, top, -, block, -⟩ := wf.root
  have all : visits = Visit.ofBlock (t.size + 1) (t.children root) ⟨t, .ofConfig config⟩ := by
    show Visit.ofRoot _ = _
    rw [Visit.ofRoot, show (Workspace.mk t (.ofConfig config)).tree.root = some root from top]
  have run := rootLines_eq wf top (w := ⟨t, .ofConfig config⟩) rfl
  have lines : unit.statements = (blockLines (resolveWithin (t.size + 1)) (t.children root)
      ⟨t, .ofConfig config⟩).1 := congrArg Prod.fst run
  have reported : unit.diagnostics = (blockLines (resolveWithin (t.size + 1)) (t.children root)
      ⟨t, .ofConfig config⟩).2.state.diagnostics := congrArg (·.2.state.diagnostics) run
  have helds := Visit.held_ofBlock wf (t.size + 1) (List.Subset.refl (t.children root))
    (wf.nodup_children root) (w := ⟨t, .ofConfig config⟩) rfl lawful fun _ _ => nofun
  refine ⟨⟨root, top, ?_⟩, ?_, fun v mem => ?_⟩
  · rw [all, Visit.statements_ofBlock]
  · rw [all, Visit.lines_ofBlock, lines]
  · rw [all] at mem
    have held := helds v mem
    rw [← reported] at held
    have enough := enough_of_root wf top held.mem
    exact ⟨held.contained wf block enough, fun params returns body function ids =>
      held.contains wf block enough function ids⟩

/-- A reserved name inside of a function, and a size for one destination behind it. -/
theorem failures_contained_reserved : ∃ t, Tree.parse "function f\npi=1\nend\n[a]=size(x)\n" = .ok t
    ∧ let visits := Visit.ofRoot ⟨t, .ofConfig {}⟩
      let unit := ((⟨.ofConfig {}⟩ : Translator).translate t).1
      unit.statements = ["void f()", "\x7b",
        "// error: Variable name 'pi' is reserved, please rename the variable", "\x7d",
        "// error: Unsupported construct: size assigned to 1 destinations"]
      ∧ (∃ root, t.root = some root ∧ visits.map (·.statement) = t.children root)
      ∧ unit.statements = visits.flatMap (·.lines)
      ∧ ∀ v ∈ visits, v.Contained t unit.diagnostics
        ∧ ∀ params returns body, t.category v.statement = .function →
          t.children v.statement = [params, returns, body] → v.Contains t unit.diagnostics body := by
  have parses : ∃ t, Tree.parse "function f\npi=1\nend\n[a]=size(x)\n" = .ok t
      ∧ ((⟨.ofConfig {}⟩ : Translator).translate t).1.statements = ["void f()", "\x7b",
        "// error: Variable name 'pi' is reserved, please rename the variable", "\x7d",
        "// error: Unsupported construct: size assigned to 1 destinations"] :=
    ⟨_, by cbv, by decide +kernel⟩
  obtain ⟨t, run, statements⟩ := parses
  exact ⟨t, run, statements, failures_contained run {}⟩

end Translator

end MatrixScript
