/-
# `Proofs.Translation.Ruled` — operators are typed after their operands

When a program has been translated, an operator has the typing that its rule answers at
operands with the typings that they have in the end (`Tree.Shows`): it is resolved after
them, and nothing but a destination of an assignment is typed again.  Where translation
failed on the way, the operator is no number and neither is one of its operands; so much
holds of every operator (`Tree.Ruled`).

It holds below a node once that is resolved, if nothing below counted as a number before
(`Pass`), and so after the translation of a tree that comes from the parser
(`Translator.ruled_translate`).
-/
import MatrixScript.Proofs.Rule.Chain
import MatrixScript.Proofs.Translation.Frame

namespace MatrixScript

/-! ## What holds of a node -/

namespace Tree

/-- The node of a site has the typing of the rule's answer, and the operands have those
that the rule saw. -/
structure Shows (t : Tree) (s : Site) (o : Outcome) : Prop where
  seeded : s.Seeded
  bare : t.bare = s.tree.bare
  operands : ∀ c ∈ s.tree.children s.id, (t.node c).typing = (s.tree.node c).typing
  answer : Rule.select s.tree s.node s = .ok o
  typing : (t.node s.id).typing = o.typing

namespace Shows

variable {t : Tree} {s : Site} {o : Outcome} (h : t.Shows s o)
include h

theorem category : t.category s.id = s.node.category :=
  congrFun (category_of_bare h.bare) s.id

/-- The operands that the rule saw are the children of the node. -/
theorem ids : s.operands.map (·.id) = t.children s.id := by
  rw [children_of_bare h.bare]
  exact h.seeded.ids

theorem typing_operand {x : Operand} (mem : x ∈ s.operands) :
    (t.node x.id).typing = x.node.typing := by
  rw [h.seeded.node x mem]
  exact h.operands x.id (h.seeded.mem_children mem)

end Shows

/-- An operator is typed by its rule, or it is no number and neither is one of its operands. -/
def Ruled (t : Tree) (id : NodeId) : Prop :=
  (t.category id).isOperator → (∃ s o, s.id = id ∧ t.Shows s o)
    ∨ (t.node id).numeric = false ∧ ∃ c ∈ t.children id, (t.node c).numeric = false

/-- Only the typings of the node and of its operands matter. -/
theorem Ruled.congr {v w : Tree} {id : NodeId} (h : w.Ruled id) (same : v.bare = w.bare)
    (own : (v.node id).typing = (w.node id).typing)
    (operands : ∀ c ∈ w.children id, (v.node c).typing = (w.node c).typing) : v.Ruled id := by
  intro operator
  rw [category_of_bare same] at operator
  refine (h operator).imp ?_ ?_
  · rintro ⟨s, o, rfl, shows⟩
    refine ⟨s, o, rfl, shows.seeded, same.trans shows.bare, fun c mem => ?_, shows.answer,
      own.trans shows.typing⟩
    have child : c ∈ w.children s.id := by rwa [children_of_bare shows.bare]
    exact (operands c child).trans (shows.operands c mem)
  · rintro ⟨none, c, mem, blank⟩
    refine ⟨(congrArg Typing.numeric own).trans none, c, ?_, ?_⟩
    · rwa [children_of_bare same]
    · exact (congrArg Typing.numeric (operands c mem)).trans blank

theorem lt_size_of_isOperator {t : Tree} {id : NodeId} (operator : (t.category id).isOperator) :
    id < t.size :=
  lt_size_of_category rfl fun none => by
    rw [none] at operator
    cases operator

/-- An operator has operands. -/
theorem WellFormed.exists_operand {t : Tree} (wf : t.WellFormed) {id : NodeId}
    (operator : (t.category id).isOperator) : ∃ c, c ∈ t.children id := by
  have admits := (wf.shaped id (lt_size_of_isOperator operator)).children
  cases children : t.children id with
  | cons c rest => exact ⟨c, List.mem_cons_self⟩
  | nil =>
    rw [children] at admits
    generalize t.category id = c at operator admits
    cases c <;> first | cases operator; done | cases admits

/-- Nothing is known of an operator that is not reached. -/
theorem ruled_of_blank {t w : Tree} (wf : t.WellFormed) (same : w.bare = t.bare) {id : NodeId}
    (own : (w.node id).numeric = false) (operands : ∀ c ∈ t.children id, (w.node c).numeric = false) :
    w.Ruled id := by
  intro operator
  rw [category_of_bare same] at operator
  obtain ⟨c, mem⟩ := wf.exists_operand operator
  exact .inr ⟨own, c, by rwa [children_of_bare same], operands c mem⟩

end Tree

/-! ## One node -/

/-- Only destinations are typed by effects. -/
theorem Workspace.typing_perform {s : Site} {e : Effect} (modest : e.Modest s) {i : NodeId}
    (other : ∀ o, s.Takes o → i ≠ o.id) (v : Workspace) :
    ((v.perform s.id e).tree.node i).typing = (v.tree.node i).typing := by
  cases modest with
  | report | use | record | tic | toc => rfl
  | hoist => exact Tree.field_modify Node.typing (fun _ => by rfl) v.tree _ i
  | redirect =>
    show ((v.redirectParent s.id _).tree.node i).typing = _
    unfold redirectParent
    split
    · exact Tree.field_modify Node.typing (fun _ => by rfl) v.tree _ i
    · rfl
  | @destination o d taken =>
    show ((v.typeDestination o.id d).tree.node i).typing = _
    have kept : ((v.tree.modify o.id fun n => { n with suggest := some d, typing := .of d }).node i).typing
        = (v.tree.node i).typing :=
      congrArg Node.typing (Tree.node_modify_of_ne (other o taken) _)
    unfold typeDestination
    dsimp only
    split
    · exact kept
    · exact kept

theorem Workspace.typing_performAll {s : Site} {es : List Effect} (modest : ∀ e ∈ es, e.Modest s)
    {i : NodeId} (other : ∀ o, s.Takes o → i ≠ o.id) (v : Workspace) :
    ((es.foldl (perform s.id) v).tree.node i).typing = (v.tree.node i).typing := by
  induction es generalizing v with
  | nil => rfl
  | cons e es ih =>
    obtain ⟨first, rest⟩ := List.forall_mem_cons.mp modest
    exact (ih rest _).trans (typing_perform first other v)

namespace Resolving

variable {t : Tree} (wf : t.WellFormed) {id : NodeId} {texts : List String} {w : Workspace}
  (same : w.tree.bare = t.bare) (lengths : texts.length = (t.children id).length)
include wf same lengths

/-- The rule of a node gives typings to the node and to the destinations below it. -/
theorem typing_applyRule {i : NodeId} (ne : i ≠ id) (other : ¬t.Takes id i) :
    ((applyRule id texts w).2.tree.node i).typing = (w.tree.node i).typing := by
  have seeded : ((w.seed id).tree.node i).typing = (w.tree.node i).typing :=
    congrArg Node.typing (Tree.node_modify_of_ne ne _)
  have site := Workspace.seeded_site wf same lengths
  have answer := Rule.select_settles site
  change Settles ((w.seed id).site id texts) (Rule.select (w.seed id).tree ((w.seed id).tree.node id)
    ((w.seed id).site id texts)) at answer
  unfold applyRule
  dsimp only
  split
  case h_1 => exact seeded
  case h_2 o ok =>
    rw [ok] at answer
    refine (congrArg Node.typing (Tree.node_modify_of_ne ne _)).trans ?_
    refine (Workspace.typing_performAll answer.effects (fun o taken eq => other ?_) _).trans seeded
    rw [eq, ← Tree.takes_of_bare ((w.bare_seed id).trans same)]
    exact taken.tree site.ids

/-- The rule of an operator answers. -/
theorem exists_answer (operator : (t.category id).isOperator) :
    ∃ o, (w.seed id).answer id texts = .ok o := by
  have bare := (w.bare_seed id).trans same
  have site := Workspace.seeded_site wf same lengths
  have category : ((w.seed id).site id texts).node.category = t.category id :=
    congrFun (Tree.category_of_bare bare) id
  refine Rule.exists_of_isOperator (category ▸ operator) fun none => ?_
  obtain ⟨c, mem⟩ := wf.exists_operand operator
  have ids : [] = t.children id := by
    rw [← Tree.children_of_bare bare, ← List.map_nil, ← none]
    exact site.ids
  rw [← ids] at mem
  cases mem

/-- Once the rule of an operator is applied, the operator shows the answer. -/
theorem ruled_applyRule_self : (applyRule id texts w).2.tree.Ruled id := by
  intro is
  have after := (keeps_applyRule id texts w).trans same
  have operator : (t.category id).isOperator := Tree.category_of_bare after ▸ is
  have site := Workspace.seeded_site wf same lengths
  have bare := (w.bare_seed id).trans same
  have operands : ∀ c ∈ t.children id, ((applyRule id texts w).2.tree.node c).typing
      = ((w.seed id).tree.node c).typing := by
    intro c mem
    have ne : c ≠ id := fun eq => wf.not_below_child mem (eq ▸ t.below_self c)
    refine (typing_applyRule wf same lengths ne fun taken => ?_).trans
      (congrArg Node.typing (Tree.node_modify_of_ne ne _)).symm
    rcases taken.1 with assign | assigns
    · rw [assign] at operator
      cases operator
    · rw [assigns] at operator
      cases operator
  obtain ⟨o, ok⟩ := exists_answer wf same lengths operator
  refine .inl ⟨(w.seed id).site id texts, o, rfl, site, after.trans bare.symm, ?_, ok, ?_⟩
  · show ∀ c ∈ (w.seed id).tree.children id, _
    rw [Tree.children_of_bare bare]
    exact operands
  · have lt := Tree.lt_size_of_isOperator is
    have tree : (applyRule id texts w).2 = (w.seed id).commit id texts o := by
      unfold applyRule
      dsimp only
      rw [show Rule.select (w.seed id).tree ((w.seed id).tree.node id) ((w.seed id).site id texts)
        = .ok o from ok]
    rw [tree] at lt ⊢
    show ((((o.effects.foldl (Workspace.perform id) (w.seed id)).tree.modify id _).node id).typing) = _
    rw [Tree.node_modify, if_pos ⟨rfl, by rwa [Workspace.commit, Workspace.modifyNode, Tree.size_modify] at lt⟩]

/-- It still holds of everything else below the node. -/
theorem ruled_applyRule (law : ∀ i, t.Below id i → i ≠ id → w.tree.Ruled i) :
    ∀ i, t.Below id i → (applyRule id texts w).2.tree.Ruled i := by
  intro i below
  by_cases here : i = id
  case pos =>
    rw [here]
    exact ruled_applyRule_self wf same lengths
  case neg =>
    have after := keeps_applyRule id texts w
    by_cases taken : t.Takes id i
    case pos =>
      intro operator
      have destination := wf.isDestination_of_takes taken
      rw [Tree.category_of_bare (after.trans same)] at operator
      generalize t.category i = c at operator destination
      cases c <;> first | cases operator; done | cases destination
    case neg =>
      refine (law i below here).congr after (typing_applyRule wf same lengths here taken) fun c mem => ?_
      rw [Tree.children_of_bare same] at mem
      refine typing_applyRule wf same lengths ?_ fun taken => here ?_
      · rintro rfl
        exact wf.not_below_child mem below
      · exact Option.some.inj ((wf.parent?_of_mem mem).symm.trans (wf.parent?_of_mem taken.mem))

/-- A node whose rule fails is no number. -/
theorem not_numeric_of_applyRule {e : Error} (failed : (applyRule id texts w).1 = .error e) :
    ((applyRule id texts w).2.tree.node id).numeric = false := by
  have bare := (w.bare_seed id).trans same
  by_cases operator : (t.category id).isOperator
  case pos =>
    obtain ⟨o, ok⟩ := exists_answer wf same lengths operator
    unfold applyRule at failed
    dsimp only at failed
    rw [show Rule.select (w.seed id).tree ((w.seed id).tree.node id) ((w.seed id).site id texts)
      = .ok o from ok] at failed
    cases failed
  case neg =>
    have tree : (applyRule id texts w).2 = w.seed id := by
      unfold applyRule at failed ⊢
      dsimp only at failed ⊢
      split at failed
      case h_1 => rfl
      case h_2 => cases failed
    have site := Workspace.seeded_site wf same lengths
    have plain : ¬((w.seed id).site id texts).node.category.isOperator := by
      rwa [← Tree.category_of_bare bare] at operator
    rw [tree]
    show ((w.seed id).site id texts).seed.numeric = false
    rw [site.eq, if_neg plain]
    rfl

end Resolving

/-! ## The walk -/

/-- Every operator below a node is ruled, the node itself is no number yet, and neither is
anything below those of its children that are still to be resolved. -/
structure Pass (t : Tree) (id : NodeId) (ids : List NodeId) (w : Workspace) : Prop where
  bare : w.tree.bare = t.bare
  law : ∀ i, t.Below id i → i ≠ id → w.tree.Ruled i
  own : (w.tree.node id).numeric = false
  rest : ∀ c ∈ ids, ∀ i, t.Below c i → (w.tree.node i).numeric = false

namespace Pass

variable {t : Tree} {id : NodeId} {ids : List NodeId} {w v : Workspace}

theorem stop (h : Pass t id ids w) : Pass t id [] w := { h with rest := nofun }

/-- Nothing below the node is a number. -/
theorem start (wf : t.WellFormed) (bare : w.tree.bare = t.bare)
    (fresh : ∀ i, t.Below id i → (w.tree.node i).numeric = false) :
    Pass t id (t.children id) w where
  bare := bare
  law i below _ := Tree.ruled_of_blank wf bare (fresh i below) fun c mem =>
    fresh c (below.trans (wf.below_of_mem mem))
  own := fresh id (t.below_self id)
  rest _ mem i below := fresh i ((wf.below_of_mem mem).trans below)

/-- A child is resolved, which leaves its siblings. -/
theorem step (wf : t.WellFormed) {c : NodeId} (h : Pass t id (c :: ids) w)
    (children : ∀ c' ∈ c :: ids, c' ∈ t.children id) (nodup : (c :: ids).Nodup)
    (spares : w.tree.Spares c v.tree) (law : ∀ i, t.Below c i → v.tree.Ruled i) :
    Pass t id ids v := by
  have elsewhere : ∀ i, ¬t.Below c i → (v.tree.node i).typing = (w.tree.node i).typing :=
    fun i apart => spares.typing i fun below => apart (below.of_bare h.bare.symm)
  have child := children c List.mem_cons_self
  have own : (v.tree.node id).numeric = false :=
    (congrArg Typing.numeric (elsewhere id (wf.not_below_child child))).trans h.own
  refine ⟨spares.bare.trans h.bare, fun i below ne => ?_, own, fun c' mem i below => ?_⟩
  · by_cases here : t.Below c i
    case pos => exact law i here
    case neg =>
      refine (h.law i below ne).congr spares.bare (elsewhere i here) fun o mem => elsewhere o ?_
      -- an operand below the child would be the child, and its operator the node itself
      rintro ⟨n, climbs⟩
      rw [Tree.children_of_bare h.bare] at mem
      cases climbs with
      | here => exact ne (Option.some.inj ((wf.parent?_of_mem mem).symm.trans (wf.parent?_of_mem child)))
      | step up rest =>
        obtain rfl := Option.some.inj (up.symm.trans (wf.parent?_of_mem mem))
        exact here ⟨_, rest⟩
  · have ne : c ≠ c' := fun eq => (List.nodup_cons.mp nodup).1 (eq ▸ mem)
    refine (congrArg Typing.numeric (elsewhere i fun below' => ne ?_)).trans
      (h.rest c' (List.mem_cons_of_mem c mem) i below)
    exact wf.apart (wf.parent?_of_mem child)
      (wf.parent?_of_mem (children c' (List.mem_cons_of_mem c mem))) below' below

end Pass

namespace Resolving

variable {t : Tree} (wf : t.WellFormed)
include wf

theorem resolveWithin_spares (depth : Nat) (id : NodeId) {w : Workspace}
    (same : w.tree.bare = t.bare) : w.tree.Spares id (resolveWithin depth id w).2.tree := by
  have wf' := wf.of_bare same
  exact stable_resolveWithin (stable_spares wf' id) wf' depth id (w.tree.below_self id) w (.refl _ id)

/-- Every operator below the node is ruled, and if resolving the node has failed, then it
is no number. -/
def Rules (t : Tree) (id : NodeId) (result : Except Error String × Workspace) : Prop :=
  (∀ i, t.Below id i → result.2.tree.Ruled i)
    ∧ ∀ e, result.1 = .error e → (result.2.tree.node id).numeric = false

section Children

variable {id : NodeId} {depth : Nat} (law : ∀ c, ∀ w : Workspace, w.tree.bare = t.bare →
  (∀ i, t.Below c i → (w.tree.node i).numeric = false) → Rules t c (resolveWithin depth c w))
include law

theorem pass_texts {ids : List NodeId} (children : ∀ c ∈ ids, c ∈ t.children id) (nodup : ids.Nodup)
    {w : Workspace} (pass : Pass t id ids w) :
    Pass t id [] (texts (resolveWithin depth) ids w).2
      ∧ ∀ e, (texts (resolveWithin depth) ids w).1 = .error e →
          ∃ c ∈ ids, ((texts (resolveWithin depth) ids w).2.tree.node c).numeric = false := by
  induction ids generalizing w with
  | nil => exact ⟨pass, nofun⟩
  | cons c ids ih =>
    have spares := resolveWithin_spares wf depth c pass.bare
    obtain ⟨first, failed⟩ := law c w pass.bare (pass.rest c List.mem_cons_self)
    cases result : resolveWithin depth c w with
    | mk answer v =>
      rw [result] at first failed spares
      have next := pass.step wf children nodup spares first
      cases answer with
      | error e =>
        rw [texts_of_error result]
        exact ⟨next.stop, fun _ _ => ⟨c, List.mem_cons_self, failed e rfl⟩⟩
      | ok text =>
        rw [texts_of_ok result]
        obtain ⟨last, later⟩ := ih (fun c' mem => children c' (List.mem_cons_of_mem c mem))
          (List.nodup_cons.mp nodup).2 next
        refine ⟨last, fun e failed => ?_⟩
        have rest : (texts (resolveWithin depth) ids v).1 = .error e := by
          cases answers : (texts (resolveWithin depth) ids v).1 with
          | error e' =>
            rw [answers] at failed
            exact failed
          | ok found =>
            rw [answers] at failed
            cases failed
        obtain ⟨c', mem, blank⟩ := later e rest
        exact ⟨c', List.mem_cons_of_mem c mem, blank⟩

theorem pass_blockLines {ids : List NodeId} (children : ∀ c ∈ ids, c ∈ t.children id)
    (nodup : ids.Nodup) {w : Workspace} (pass : Pass t id ids w) :
    Pass t id [] (blockLines (resolveWithin depth) ids w).2 := by
  induction ids generalizing w with
  | nil => exact pass
  | cons c ids ih =>
    have tree : (statementLines (resolveWithin depth) c w).2.tree
        = (resolveWithin depth c { w with state := w.state.withPending [] }).2.tree := by
      unfold statementLines
      dsimp only
      split
      · rfl
      · rfl
    have spares := resolveWithin_spares wf depth c (w := { w with state := w.state.withPending [] })
      pass.bare
    obtain ⟨first, -⟩ := law c { w with state := w.state.withPending [] } pass.bare
      (pass.rest c List.mem_cons_self)
    rw [← tree] at first spares
    exact ih (fun c' mem => children c' (List.mem_cons_of_mem c mem)) (List.nodup_cons.mp nodup).2
      (pass.step wf children nodup spares first)

theorem rules_node {w : Workspace} (same : w.tree.bare = t.bare)
    (fresh : ∀ i, t.Below id i → (w.tree.node i).numeric = false) :
    Rules t id (node (resolveWithin depth) id w) := by
  obtain ⟨pass, failed⟩ := pass_texts wf law (fun _ mem => mem) (wf.nodup_children id)
    (Pass.start wf same fresh)
  unfold node
  rw [Tree.children_of_bare same]
  cases result : texts (resolveWithin depth) (t.children id) w with
  | mk answers v =>
    rw [result] at pass failed
    cases answers with
    | error e =>
      refine ⟨fun i below => ?_, fun _ _ => pass.own⟩
      by_cases here : i = id
      case pos =>
        obtain ⟨c, mem, blank⟩ := failed e rfl
        exact fun _ => .inr ⟨here ▸ pass.own, c,
          by rwa [here, Tree.children_of_bare pass.bare], blank⟩
      case neg => exact pass.law i below here
    | ok found =>
      have lengths := length_of_texts result
      exact ⟨ruled_applyRule wf pass.bare lengths pass.law,
        fun _ failed => not_numeric_of_applyRule wf pass.bare lengths failed⟩

end Children

/-- If nothing below a node is a number before, every operator below it is ruled afterwards. -/
theorem rules_resolveWithin (depth : Nat) : ∀ id, ∀ w : Workspace, w.tree.bare = t.bare →
    (∀ i, t.Below id i → (w.tree.node i).numeric = false) →
      Rules t id (resolveWithin depth id w) := by
  induction depth with
  | zero =>
    intro id w same fresh
    refine ⟨fun i below => ?_, fun _ _ => fresh id (t.below_self id)⟩
    exact Tree.ruled_of_blank wf same (fresh i below) fun c mem =>
      fresh c (below.trans (wf.below_of_mem mem))
  | succ depth ih =>
    intro id w same fresh
    unfold resolveWithin
    split
    case h_1 category =>
      unfold block
      rw [Tree.children_of_bare same]
      have pass := pass_blockLines wf ih (fun _ mem => mem) (wf.nodup_children id)
        (Pass.start wf same fresh)
      refine ⟨fun i below => ?_, nofun⟩
      by_cases here : i = id
      case pos =>
        intro operator
        rw [here, Tree.category_of_bare (pass.bare.trans same.symm), Tree.category, category] at operator
        cases operator
      case neg => exact pass.law i below here
    · exact rules_node wf ih (w := { w with state := w.state.pushScope }) same fresh
    · exact rules_node wf ih same fresh

/-- After the root's statements every operator of the tree is ruled, if nothing was a number
before. -/
theorem ruled_rootLines {w : Workspace} (same : w.tree.bare = t.bare)
    (fresh : ∀ i, (w.tree.node i).numeric = false) (i : NodeId) :
    (rootLines w).2.tree.Ruled i := by
  obtain ⟨root, top, -, block, -⟩ := wf.root
  have walked : Pass t root [] (rootLines w).2 := by
    rw [rootLines_eq wf top same]
    exact pass_blockLines wf (rules_resolveWithin wf _) (fun _ mem => mem) (wf.nodup_children root)
      (Pass.start wf same fun i _ => fresh i)
  intro operator
  rw [Tree.category_of_bare walked.bare] at operator
  have ne : i ≠ root := by
    rintro rfl
    rw [block] at operator
    cases operator
  have below := wf.grounded root top i (Tree.lt_size_of_isOperator operator) ne
  refine walked.law i (Tree.exists_climbs_of_mem below) ne ?_
  rwa [Tree.category_of_bare walked.bare]

end Resolving

/-- After the translation of a script every operator is ruled. -/
theorem Translator.ruled_translate {source : String} {t : Tree} (parsed : Tree.parse source = .ok t)
    (translator : Translator) (id : NodeId) : (translator.translate t).2.1.Ruled id := by
  have fresh : ∀ i, (t.node i).numeric = false :=
    (Tree.raw_of_parse parsed).forall_node (p := fun n => n.numeric = false) fun _ => rfl
  have wf := Tree.wellFormed_of_parsed parsed
  exact Resolving.ruled_rootLines wf (w := ⟨t, translator.state⟩) rfl fresh id

end MatrixScript
