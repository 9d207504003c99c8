/-
# `Proofs.Translation.Phrased` — what is emitted is put together from phrases

At every point of a translation, everything that is written, hoisted or waits to be placed
is a phrase that names helpers in use at that point only (`Worded`).  A rule keeps this up
(`Worded.applyRule`), because it puts phrases together and takes the helpers into use that
it writes (`Rule.select_tells`); helpers are only added, so what was written before stays
as it is.
-/
import MatrixScript.Proofs.Cpp.PhraseReading
import MatrixScript.Proofs.Rule.SelectPhrased
import MatrixScript.Proofs.Translation.Frame
import MatrixScript.Proofs.Translation.Orderly

namespace MatrixScript

open Cpp

/-- What texts may mention at this point of a translation. -/
def State.idiom (s : State) : Idiom := ⟨s.config.tempStem, s.includes⟩

theorem Cpp.Phrase.grows {s s' : State} (grows : s.Grows s') {list : Bool} {a : String}
    (h : Phrase s.idiom list a) : Phrase s'.idiom list a := by
  have idiom : s'.idiom = ⟨s.idiom.stem, s'.includes⟩ := by
    rw [State.idiom, grows.config]
    rfl
  rw [idiom]
  exact h.mono grows.includes

/-- The name of any temporary that is made next. -/
theorem State.phrase_nextName (s : State) (d : Datatype) : Phrase s.idiom false (s.nextName d) := by
  have suffix : s.nextName d = s.config.tempStem
      ++ ("_" ++ d.typeName ++ "_" ++ toString (s.nextNumber d)) := by
    simp only [nextName, String.append_assoc]
  rw [suffix]
  refine Piece.temporary (Rule.append_ne_empty ?_) ?_
  · intro none
    have letters := congrArg String.toList none
    simp at letters
  · simp only [String.toList_append, List.forall_mem_append]
    exact ⟨⟨⟨List.all_eq_true.mp rfl, word_typeName d⟩, List.all_eq_true.mp rfl⟩, word_nat _⟩

/-- The definition of a temporary. -/
theorem phrase_definition {I : Idiom} {name text : String} (named : Phrase I false name)
    (phrase : Phrase I false text) (d : Datatype) :
    Phrase I true (State.definition name text d) ∧ State.definition name text d ≠ "" := by
  have type : Phrase I false d.typeName := phrase_name (word_typeName d)
  have declared := (Piece.put type " " (r := ⟨[], .apart⟩) rfl).say named
  have whole := ((declared.put " = " (r := ⟨[], .apart⟩) rfl).say phrase).put " ;"
    (r := ⟨[], .apart⟩) rfl
  exact ⟨Phrase.weaken whole.loosen true, Rule.append_ne_empty (by decide)⟩

theorem Effect.Tells.grows {s s' : State} (grows : s.Grows s') {e : Effect} (h : e.Tells s.idiom) :
    e.Tells s'.idiom := by
  cases e with
  | hoist => exact Phrase.grows grows h
  | _ => trivial

namespace Site

/-- With more helpers in use everything stays a phrase. -/
theorem Phrased.mono {I : Idiom} {s : Site} {used : List Include} (more : I.used ⊆ used)
    (h : s.Phrased I) : s.Phrased ⟨I.stem, used⟩ where
  self := h.self
  operands o mem := (h.operands o mem).mono more
  rendered o mem := (h.rendered o mem).mono more
  reach o mem c child := (h.reach o mem c child).mono more
  rows o mem := (h.rows o mem).imp_left (Phrase.mono more)
  ranges := h.ranges
  temporary node d := (h.temporary node d).mono more

theorem Phrased.grows {s : State} {s' : State} (grows : s.Grows s') {site : Site}
    (h : site.Phrased s.idiom) : site.Phrased s'.idiom := by
  have idiom : s'.idiom = ⟨s.idiom.stem, s'.includes⟩ := by
    rw [State.idiom, grows.config]
    rfl
  rw [idiom]
  exact h.mono grows.includes

end Site

namespace Workspace

/-- Everything that is written so far is put together from phrases. -/
structure Worded (t : Tree) (w : Workspace) : Prop where
  bare : w.tree.bare = t.bare
  lawful : w.tree.Lawful
  texts : ∀ i, (t.category i).isInline →
    Phrase w.state.idiom (t.category i).isListing (w.tree.node i).text
  ranges : ∀ i, t.category i = .range → (w.tree.node i).shape ≠ .scalar
  temporaries : ∀ e ∈ w.state.temporaries, Phrase w.state.idiom false e.name
    ∧ Phrase w.state.idiom true e.definition ∧ e.definition ≠ ""
  pending : ∀ l ∈ w.state.pending, Phrase w.state.idiom true l ∧ l ≠ ""
  /-- names of temporaries stay on their line -/
  stem : '\n' ∉ w.state.idiom.stem.toList

namespace Worded

variable {t : Tree} {w w' : Workspace}

theorem stem_of_grows (h : Worded t w) {s : State} (grows : w.state.Grows s) :
    '\n' ∉ s.idiom.stem.toList := by
  show '\n' ∉ s.config.tempStem.toList
  rw [grows.config]
  exact h.stem

theorem temporaryName (h : Worded t w) (node : NodeId) (d : Datatype) :
    Phrase w.state.idiom false (w.state.temporaryName node d) := by
  unfold State.temporaryName
  split
  case h_1 e found => exact (h.temporaries e (State.mem_of_temporary? found).1).1
  case h_2 => exact w.state.phrase_nextName d

/-- An argument of a call is no list. -/
theorem phrase_argument (h : Worded t w) (wf : t.WellFormed) {id c : NodeId} (get : t.category id = .get)
    (mem : c ∈ t.children id) : Phrase w.state.idiom false (w.tree.node c).text := by
  have block : t.category id ≠ .block := by rw [get]; decide
  have function : t.category id ≠ .function := by rw [get]; decide
  have matrix : t.category id ≠ .matrix := by rw [get]; decide
  have phrase := h.texts c (wf.isInline_child block function mem)
  rwa [Category.isListing_of_admits (wf.shaped id (Tree.lt_size_of_category rfl block)).children block matrix
    function (List.mem_map_of_mem mem)] at phrase

/-- Nothing is written. -/
theorem idle (h : Worded t w) (bare : w'.tree.bare = w.tree.bare) (lawful : w'.tree.Lawful)
    (grows : w.state.Grows w'.state) (idle : w.Idle w')
    (ranges : ∀ i, t.category i = .range → (w'.tree.node i).shape ≠ .scalar) : Worded t w' where
  bare := bare.trans h.bare
  lawful := lawful
  texts i inline := by
    have text : (w'.tree.node i).text = (w.tree.node i).text := by
      rw [Node.text, idle.rendered, Node.text,
        show (w'.tree.node i).label = (w.tree.node i).label from
          Tree.field_of_bare bare Node.label (fun _ => rfl) i]
    rw [text]
    exact (h.texts i inline).grows grows
  ranges := ranges
  temporaries e mem := by
    rw [idle.temporaries] at mem
    obtain ⟨name, definition, some⟩ := h.temporaries e mem
    exact ⟨name.grows grows, definition.grows grows, some⟩
  pending l mem := by
    rw [idle.pending] at mem
    exact ⟨(h.pending l mem).1.grows grows, (h.pending l mem).2⟩
  stem := h.stem_of_grows grows

/-- Only what is remembered changes, but nothing that is written. -/
theorem state (h : Worded t w) {s : State} (grows : w.state.Grows s)
    (temporaries : s.temporaries = w.state.temporaries)
    (pending : ∀ l ∈ s.pending, Phrase s.idiom true l ∧ l ≠ "") :
    Worded t { w with state := s } where
  bare := h.bare
  lawful := h.lawful
  texts i inline := (h.texts i inline).grows grows
  ranges := h.ranges
  temporaries e mem := by
    rw [temporaries] at mem
    obtain ⟨name, definition, some⟩ := h.temporaries e mem
    exact ⟨name.grows grows, definition.grows grows, some⟩
  pending := pending
  stem := h.stem_of_grows grows

theorem pushScope (h : Worded t w) : Worded t { w with state := w.state.pushScope } :=
  h.state (s := w.state.pushScope) ⟨rfl, List.Subset.refl _, List.Subset.refl _, id, id, List.prefix_rfl⟩ rfl
    h.pending

theorem popScope (h : Worded t w) : Worded t { w with state := w.state.popScope } := by
  have same : ∀ {β : Type} (field : State → β), (∀ s scope outer,
      field { s with scope, outer } = field s) → field w.state.popScope = field w.state := by
    intro β field kept
    unfold State.popScope
    split
    · rfl
    · exact kept _ _ _
  refine h.state w.state.grows_popScope (same State.temporaries fun _ _ _ => rfl) ?_
  rw [same State.pending fun _ _ _ => rfl, same State.idiom fun _ _ _ => rfl]
  exact h.pending

/-- Something is written at one node. -/
theorem write (h : Worded t w) {id : NodeId} {f : Node → Node} {text : String}
    (bare : ∀ n, (f n).bare = n.bare) (redirect : ∀ n, (f n).redirect = n.redirect)
    (suggest : ∀ n, (f n).suggest = n.suggest) (written : ∀ n, (f n).text = text)
    (phrase : (t.category id).isInline → Phrase w.state.idiom (t.category id).isListing text)
    (range : t.category id = .range → (f (w.tree.node id)).shape ≠ .scalar) :
    Worded t (w.modifyNode id f) := by
  have leads : w.Leads (fun _ => True) (w.modifyNode id f) :=
    .modifyNode bare redirect (.inr ⟨id, trivial, .inl rfl⟩) fun _ => suggest
  refine ⟨leads.bare.trans h.bare, leads.lawful h.lawful, fun i inline => ?_, fun i category => ?_,
    h.temporaries, h.pending, h.stem⟩
  · rw [Workspace.modifyNode, Tree.node_modify]
    split
    case isTrue here =>
      obtain ⟨rfl, -⟩ := here
      rw [written]
      exact phrase inline
    case isFalse => exact h.texts i inline
  · rw [Workspace.modifyNode, Tree.node_modify]
    split
    case isTrue here =>
      obtain ⟨rfl, -⟩ := here
      exact range category
    case isFalse => exact h.ranges i category

/-- A node goes into a temporary. -/
theorem hoist (h : Worded t w) (node : NodeId) {text : String}
    (phrase : Phrase w.state.idiom false text) (d : Datatype) : Worded t (w.hoist node text d) := by
  have named := h.temporaryName node d
  have grows := w.state.grows_hoist node text d
  have hoisted : Worded t { w with state := w.state.hoist node text d } := by
    have created := phrase_definition (w.state.phrase_nextName d) phrase d
    refine ⟨h.bare, h.lawful, fun i inline => (h.texts i inline).grows grows, h.ranges, ?_, ?_,
      h.stem_of_grows grows⟩
    · have new : ∀ e ∈ (w.state.hoist node text d).temporaries, Phrase w.state.idiom false e.name
          ∧ Phrase w.state.idiom true e.definition ∧ e.definition ≠ "" := by
        unfold State.hoist
        split
        · split
          · exact h.temporaries
          · exact h.temporaries
        · exact List.forall_mem_append.mpr ⟨h.temporaries,
            List.forall_mem_singleton.mpr ⟨w.state.phrase_nextName d, created⟩⟩
      intro e mem
      obtain ⟨name, definition, some⟩ := new e mem
      exact ⟨name.grows grows, definition.grows grows, some⟩
    · have new : ∀ l ∈ (w.state.hoist node text d).pending, Phrase w.state.idiom true l ∧ l ≠ "" := by
        unfold State.hoist
        split
        case h_1 e found =>
          split
          · exact h.pending
          · exact List.forall_mem_append.mpr ⟨h.pending, List.forall_mem_singleton.mpr
              (h.temporaries e (State.mem_of_temporary? found).1).2⟩
        · exact List.forall_mem_append.mpr ⟨h.pending, List.forall_mem_singleton.mpr created⟩
      exact fun l mem => ⟨(new l mem).1.grows grows, (new l mem).2⟩
  refine hoisted.write (fun _ => rfl) (fun _ => rfl) (fun _ => rfl) (fun _ => rfl)
    (fun _ => (named.grows grows).weaken _) fun category => h.ranges node category

end Worded

/-! ## Rules -/

section

variable {t : Tree} (wf : t.WellFormed) {w : Workspace} {id : NodeId}
include wf

omit wf in
/-- An effect types the destinations of its node only. -/
theorem typing_perform_of_lawful {e : Effect} (lawful : e.Lawful t id)
    {i : NodeId} (other : ¬t.Takes id i) :
    ((w.perform id e).tree.node i).typing = (w.tree.node i).typing := by
  have kept : ∀ (u : Workspace) {j : NodeId} {f : Node → Node}, (j ≠ i ∨ ∀ n, (f n).typing = n.typing) →
      ((u.modifyNode j f).tree.node i).typing = (u.tree.node i).typing := by
    intro u j f keeps
    rw [Workspace.modifyNode, Tree.node_modify]
    split
    case isTrue here =>
      rcases keeps with apart | typing
      · exact absurd here.1.symm apart
      · exact typing _
    case isFalse => rfl
  cases e with
  | report | use | record | tic | toc => rfl
  | hoist node text d => exact kept _ (.inr fun _ => rfl)
  | redirect b =>
    show ((w.redirectParent id b).tree.node i).typing = _
    unfold redirectParent
    split
    · exact kept _ (.inr fun _ => rfl)
    · rfl
  | destination c d =>
    have apart : c ≠ i := by
      rintro rfl
      exact other lawful
    show ((w.typeDestination c d).tree.node i).typing = _
    unfold typeDestination
    dsimp only
    split
    · exact kept _ (.inl apart)
    · exact kept _ (.inl apart)

omit wf in
theorem includes_perform {i : Include} :
    i ∈ ((w.perform id (.use i)).state).includes := w.state.mem_includes_addInclude i

theorem Worded.perform (h : Worded t w) {e : Effect} (lawful : e.Lawful t id)
    (tells : e.Tells w.state.idiom) : Worded t (w.perform id e) := by
  have leads := leads_perform wf h.bare lawful
  have ranges : ∀ i, t.category i = .range → ((w.perform id e).tree.node i).shape ≠ .scalar := by
    intro i range
    have other : ¬t.Takes id i := by
      intro taken
      have destination := wf.isDestination_of_takes taken
      rw [range] at destination
      cases destination
    have shape := congrArg (·.datatype.shape) (typing_perform_of_lawful (w := w) lawful other)
    exact fun scalar => h.ranges i range (shape.symm.trans scalar)
  cases hoisted : e.hoisted? with
  | none =>
    exact h.idle leads.bare (leads.lawful h.lawful) leads.grows (Idle.perform id w hoisted) ranges
  | some pair =>
    cases e with
    | hoist node text d => exact h.hoist node tells d
    | _ => cases hoisted

/-- All effects of a rule, which hoist phrases only. -/
theorem Worded.performAll (h : Worded t w) {es : List Effect} (lawful : ∀ e ∈ es, e.Lawful t id)
    (tells : ∀ e ∈ es, e.Tells w.state.idiom) :
    Worded t (es.foldl (Workspace.perform id) w)
      ∧ (∀ i, Effect.use i ∈ es → i ∈ (es.foldl (Workspace.perform id) w).state.includes)
      ∧ ∀ i, ¬t.Takes id i → ((es.foldl (Workspace.perform id) w).tree.node i).typing
        = (w.tree.node i).typing := by
  induction es generalizing w with
  | nil => exact ⟨h, nofun, fun _ _ => rfl⟩
  | cons e' es ih =>
    obtain ⟨here, there⟩ := List.forall_mem_cons.mp lawful
    obtain ⟨tellsHere, tellsThere⟩ := List.forall_mem_cons.mp tells
    have leads := leads_perform wf h.bare here
    have grown : ∀ e ∈ es, e.Tells (w.perform id e').state.idiom := fun e mem =>
      (tellsThere e mem).grows leads.grows
    obtain ⟨worded, used, typing⟩ := ih (h.perform wf here tellsHere) there grown
    have rest := leads_performAll wf (leads.bare.trans h.bare) there
    refine ⟨worded, fun i mem => ?_, fun i other => ?_⟩
    · rcases List.mem_cons.mp mem with rfl | later
      · exact rest.grows.includes includes_perform
      · exact used i later
    · exact (typing i other).trans (typing_perform_of_lawful here other)

/-- What is known of a node once it is resolved to a text.  The elements of a row whose text
is a list are scalars. -/
structure Told (t : Tree) (w : Workspace) (id : NodeId) (text : String) : Prop where
  phrase : Phrase w.state.idiom (t.category id).isListing text
  row : t.category id = .row → Phrase w.state.idiom false text
    ∨ ((∀ c ∈ t.children id, (w.tree.node c).shape = .scalar ∧ t.category c ≠ .range)
      ∧ 1 < (t.children id).length)

omit wf in
/-- It stays so as long as the children keep their types. -/
theorem Told.keep {w' : Workspace} {text : String} (h : Told t w id text)
    (grows : w.state.Grows w'.state)
    (typing : ∀ c ∈ t.children id, (w'.tree.node c).typing = (w.tree.node c).typing) :
    Told t w' id text := by
  refine ⟨h.phrase.grows grows, fun row => ?_⟩
  rcases h.row row with phrase | ⟨plain, several⟩
  · exact .inl (phrase.grows grows)
  · refine .inr ⟨fun c mem => ?_, several⟩
    have shape := congrArg (·.datatype.shape) (typing c mem)
    exact ⟨shape.trans (plain c mem).1, (plain c mem).2⟩

/-- The result of resolving a node: what a failure says is a phrase; a text is one too, or
is made of lines that are. -/
def Written (t : Tree) (w : Workspace) (id : NodeId) : Except Error String → Prop
  | .error e => Phrase w.state.idiom true e.message
  | .ok text => if (t.category id).isInline then Told t w id text
      else Prints w.state.idiom text

section

omit wf in
/-- A range starts from a type that is unknown, and everything else keeps its text. -/
theorem Worded.seed (h : Worded t w) (id : NodeId) : Worded t (w.seed id) := by
  have leads := leads_seed (P := fun _ => True) w id
  refine h.idle leads.bare (leads.lawful h.lawful) leads.grows (.modifyNode w id fun _ => rfl)
    fun i range => ?_
  have category : (w.tree.node i).category = .range :=
    (congrFun (Tree.category_of_bare h.bare) i).trans range
  have unknown : seedTyping w.tree (w.tree.node i) = .unknown := by
    rw [seedTyping, category]
    rfl
  rw [Workspace.seed, Workspace.modifyNode, Tree.node_modify]
  split
  · show (seedTyping w.tree (w.tree.node i)).datatype.shape ≠ .scalar
    rw [unknown]
    decide
  · exact h.ranges i range

variable (spelt : t.Spelt .words) (lt : id < t.size) (block : t.category id ≠ .block)
  (function : t.category id ≠ .function) {found : List String}
include spelt lt block function

/-- What the rule of a node sees is put together from phrases. -/
theorem Worded.site (h : Worded t w) (told : List.Forall₂ (Told t w) (t.children id) found)
    (spells : t.Spells (t.children id) found) (seeded : Worded t (w.seed id)) :
    ((w.seed id).site id found).Phrased w.state.idiom := by
  have same := seeded.bare
  have category : ∀ i, ((w.seed id).tree.node i).category = t.category i :=
    congrFun (Tree.category_of_bare same)
  have ids : ∀ i, (w.seed id).tree.children i = t.children i :=
    congrFun (Tree.children_of_bare same)
  have lengths : found.length = (t.children id).length := told.length_eq.symm
  have operand : ∀ o ∈ ((w.seed id).site id found).operands,
      o.id ∈ t.children id ∧ o.node = (w.seed id).tree.node o.id ∧ Told t w o.id o.text := by
    intro o mem
    obtain ⟨⟨c, text⟩, there, rfl⟩ := List.mem_map.mp mem
    rw [ids] at there
    exact ⟨(List.of_mem_zip there).1, rfl, List.forall₂_zip told there⟩
  have inline : ∀ c ∈ t.children id, (t.category c).isInline := fun c mem =>
    wf.isInline_child block function mem
  have alike : ((w.seed id).site id found).Alike .words False ((w.seed id).site id found) :=
    alike_self (wf.of_bare same) (spelt.of_bare same) seeded.lawful
      (by rwa [Tree.size_of_bare same]) (by rwa [ids]) (fun _ _ => ⟨rfl, fun _ _ => rfl⟩)
      (List.forall₂_same.mpr fun _ _ => rfl) (by rw [ids]; exact spells.of_bare same)
      fun _ _ _ _ _ _ => ⟨rfl, rfl⟩
  refine ⟨alike, fun o mem => ?_, fun o mem => ?_, fun o mem c child => ?_, fun o mem => ?_,
    fun o mem range => ?_, h.temporaryName⟩
  · obtain ⟨-, node, told⟩ := operand o mem
    rw [node, category]
    exact told.phrase
  · obtain ⟨child, node, -⟩ := operand o mem
    rw [node, category]
    exact seeded.texts o.id (inline o.id child)
  · obtain ⟨there, node, -⟩ := operand o mem
    rw [node, show ((w.seed id).tree.node o.id).children = t.children o.id from ids o.id] at child
    rw [show ((w.seed id).site id found).tree.category c = t.category c from category c]
    exact seeded.texts c (wf.isInline_below (inline o.id there) child)
  · obtain ⟨child, node, told⟩ := operand o mem
    cases listing : (t.category o.id).isListing with
    | false =>
      have phrase := told.phrase
      rw [listing] at phrase
      exact .inl phrase
    | true =>
      -- only a matrix has children that are lists, which are rows
      have admits := (wf.shaped id lt).children
      have there : t.category o.id ∈ (t.children id).map t.category := List.mem_map_of_mem child
      have matrix : t.category id = .matrix := by
        by_contra other
        have single := Category.isListing_of_admits admits block other function there
        rw [listing] at single
        cases single
      have row : t.category o.id = .row := by
        rw [matrix] at admits
        exact eq_of_beq (List.all_eq_true.mp admits _ there)
      refine (told.row row).imp_right fun ⟨plain, several⟩ => ?_
      have children : o.node.children = t.children o.id := by rw [node]; exact ids o.id
      refine ⟨?_, by rwa [Rule.widthOf, children]⟩
      unfold Rule.isPlain Rule.elementsOf
      rw [children, List.all_map, List.all_eq_true]
      intro c element
      obtain ⟨scalar, range⟩ := plain c element
      have apart : c ≠ id := fun eq =>
        wf.not_below_child child (eq ▸ wf.below_of_mem element)
      have kept : (w.seed id).tree.node c = w.tree.node c := Tree.node_modify_of_ne apart _
      have other : ((w.seed id).tree.node c).category ≠ .range := (category c).symm ▸ range
      show ((((w.seed id).tree.node c).shape == .scalar || _)
        && ((w.seed id).tree.node c).category != .range) = true
      rw [kept] at other ⊢
      rw [scalar]
      simpa using other
  · obtain ⟨-, node, -⟩ := operand o mem
    rw [node, category] at range
    rw [Operand.shape, node]
    exact seeded.ranges o.id range

/-- The rule of a node that is neither a function nor a block. -/
theorem Worded.applyRule (h : Worded t w)
    (told : List.Forall₂ (Told t w) (t.children id) found)
    (spells : t.Spells (t.children id) found) :
    Worded t (Resolving.applyRule id found w).2
      ∧ Written t (Resolving.applyRule id found w).2 id (Resolving.applyRule id found w).1 := by
  have seeded := h.seed id
  have phrased := h.site wf spelt lt block function told spells seeded
  have lengths : found.length = (t.children id).length := told.length_eq.symm
  have category : ((w.seed id).site id found).node.category = t.category id :=
    congrFun (Tree.category_of_bare seeded.bare) id
  have tells : ∀ {I : Idiom}, ((w.seed id).site id found).Phrased I →
      ((w.seed id).site id found).Tells I (((w.seed id).site id found).Gives I)
        ((w.seed id).answer id found) := fun phrased =>
    Rule.select_tells phrased (category ▸ function) (category ▸ block)
  rw [applyRule_eq]
  cases answer : (w.seed id).answer id found with
  | error e =>
    have failed := tells phrased
    rw [answer] at failed
    exact ⟨seeded, failed⟩
  | ok o =>
    rw [answer] at tells
    have lawful : ∀ e ∈ o.effects, e.Lawful t id :=
      lawful_answer wf seeded.bare seeded.lawful lt block lengths (fun _ => spells) answer
    obtain ⟨worded, used, typing⟩ := seeded.performAll wf lawful (tells phrased).1
    have leads := leads_performAll wf seeded.bare lawful
    have gives := (tells (phrased.grows leads.grows)).2 used
    have ids : (w.seed id).tree.children id = t.children id :=
      congrFun (Tree.children_of_bare seeded.bare) id
    rw [← textOf_eq _ (by rwa [ids]), Site.Gives, category] at gives
    refine ⟨worded.write (fun _ => rfl) (fun _ => rfl) (fun _ => rfl) (fun _ => rfl)
      (fun inline => ?_) fun range => ?_, ?_⟩
    · rw [if_pos inline] at gives
      exact gives.1
    · show o.typing.datatype.shape ≠ .scalar
      rw [Rule.shape_of_select (category.trans range) answer]
      decide
    · show if (t.category id).isInline then _ else _
      split
      case isFalse lines =>
        rw [if_neg lines] at gives
        exact gives
      case isTrue inline =>
        rw [if_pos inline] at gives
        refine ⟨gives.1, fun row => (gives.2 row).imp_right fun uneven => ?_⟩
        obtain ⟨plain, several⟩ := uneven
        refine ⟨fun c mem => ?_, ?_⟩
        · have there : c ∈ ((w.seed id).site id found).operands.map (·.id) := by
            rw [(w.seed id).ids_site (by rwa [ids])]
            exact ids.symm ▸ mem
          obtain ⟨operand, mem', rfl⟩ := List.mem_map.mp there
          obtain ⟨scalar, range⟩ := plain operand mem'
          have node := (mem_children_of_operand mem').2
          have other : ¬t.Takes id operand.id := by
            rintro ⟨assigns, -⟩
            rw [row] at assigns
            rcases assigns with assigns | assigns <;> cases assigns
          have apart : operand.id ≠ id := fun eq =>
            wf.not_below_child mem (eq ▸ t.below_self id)
          rw [Operand.shape, node] at scalar
          rw [node, show ((w.seed id).tree.node operand.id).category = t.category operand.id from
            congrFun (Tree.category_of_bare seeded.bare) _] at range
          refine ⟨?_, range⟩
          have shape := congrArg (·.datatype.shape) (typing operand.id other)
          show (Tree.node (Tree.modify _ id _) operand.id).shape = _
          rw [Tree.node_modify_of_ne apart]
          exact shape.trans scalar
        · have operands : ((w.seed id).site id found).operands.map (·.id) = t.children id :=
            ((w.seed id).ids_site (by rwa [ids])).trans ids
          have count := congrArg List.length operands
          rw [List.length_map] at count
          omega

end

end

end Workspace

end MatrixScript
