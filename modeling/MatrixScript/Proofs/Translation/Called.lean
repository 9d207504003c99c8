/-
# `Proofs.Translation.Called` — calls fit the definitions that they call

A statement that calls a function is resolved after its destinations and the call in it,
which ask for nothing but types (`Outcome.Calm`): so its own rule finds them as they were
left, and the names that are no variables are still none (`Resolving.passed_of_run`).  The
lines of the statement and of the definition are then those of their rules
(`Visit.Due.passes`, `Visit.Due.defines`), which agree on what is returned and what is
referred to, unless one destination stands in brackets (`Translator.calls_fit`).
-/
import MatrixScript.Proofs.Rule.Called
import MatrixScript.Proofs.Translation.Scalar
import MatrixScript.Proofs.Translation.Turns

namespace MatrixScript

open Cpp Resolving Workspace

variable {t : Tree}

/-- Below an expression there are expressions only. -/
theorem Tree.WellFormed.isInline_of_below (wf : t.WellFormed) {c i : NodeId}
    (inline : (t.category c).isInline) (below : t.Below c i) : (t.category i).isInline := by
  obtain ⟨n, climbs⟩ := below
  induction climbs with
  | here => exact inline
  | step up _ ih => exact wf.isInline_below (ih inline) (wf.heldBy_of_parent? up).mem_children

namespace Resolving

theorem tree_performAll {es : List Effect} (calm : ∀ e ∈ es, ∃ x d, e = .record x d) (id : NodeId)
    (w : Workspace) : (es.foldl (perform id) w).tree = w.tree := by
  induction es generalizing w with
  | nil => rfl
  | cons e es ih =>
    obtain ⟨⟨x, d, rfl⟩, rest⟩ := List.forall_mem_cons.mp calm
    exact ih rest _

/-- A node whose rule is applied reads as the rule says; if that is calm, no other node changes. -/
theorem exists_outcome {id : NodeId} {found : List String} {w w' : Workspace}
    (lengths : found.length = (w.tree.children id).length) {text : String}
    (run : applyRule id found w = (.ok text, w')) : ∃ o, (w.seed id).answer id found = .ok o
      ∧ text = ((w.seed id).site id found).written o
      ∧ (o.Calm → ∀ i, i ≠ id → w'.tree.node i = w.tree.node i) := by
  rw [applyRule_eq] at run
  cases answer : (w.seed id).answer id found with
  | error e =>
    rw [answer] at run
    cases run
  | ok o =>
    rw [answer] at run
    cases run
    refine ⟨o, rfl, textOf_eq _ ?_ o, fun calm i other => ?_⟩
    · rw [lengths, Tree.children_of_bare (w.bare_seed id)]
    · unfold commit
      dsimp only
      rw [Workspace.modifyNode, Tree.node_modify_of_ne other, tree_performAll calm]
      exact Tree.node_modify_of_ne other _

/-- A node that is resolved is resolved after its children. -/
theorem exists_run {depth : Nat} {id : NodeId} {w w' : Workspace} {text : String}
    (same : w.tree.bare = t.bare) (block : t.category id ≠ .block) (function : t.category id ≠ .function)
    (run : resolveWithin depth id w = (.ok text, w')) : ∃ depth' found w₁, depth = depth' + 1
      ∧ texts (resolveWithin depth') (t.children id) w = (.ok found, w₁)
      ∧ applyRule id found w₁ = (.ok text, w') := by
  cases depth with
  | zero => cases run
  | succ depth =>
    unfold resolveWithin at run
    rw [show (w.tree.node id).category = t.category id from congrFun (Tree.category_of_bare same) id]
      at run
    split at run
    case h_1 => exact absurd ‹_› block
    case h_2 => exact absurd ‹_› function
    case h_3 =>
      unfold node at run
      rw [Tree.children_of_bare same] at run
      cases results : texts (resolveWithin depth) (t.children id) w with
      | mk answers w₁ =>
      rw [results] at run
      cases answers with
      | error e => cases run
      | ok found => exact ⟨depth, found, w₁, rfl, results, run⟩

/-- Of several nodes that are resolved the last comes last. -/
theorem texts_concat {resolve : NodeId → Resolving String} {ids : List NodeId} {c : NodeId}
    {w w' : Workspace} {all : List String} (run : texts resolve (ids ++ [c]) w = (.ok all, w')) :
    ∃ found text w₁, all = found ++ [text] ∧ texts resolve ids w = (.ok found, w₁)
      ∧ resolve c w₁ = (.ok text, w') := by
  rw [texts_append] at run
  cases first : texts resolve ids w with
  | mk answers w₁ =>
  rw [first] at run
  cases answers with
  | error e => cases run
  | ok found =>
    dsimp only at run
    cases second : resolve c w₁ with
    | mk answer w₂ =>
    cases answer with
    | error e =>
      rw [texts_of_error second] at run
      cases run
    | ok text =>
      rw [texts_of_ok second] at run
      cases run
      exact ⟨found, text, w₁, rfl, rfl, second⟩

section

variable (wf : t.WellFormed) {depth : Nat} {w w' : Workspace} (same : w.tree.bare = t.bare)
  (lawful : w.tree.Lawful)
include wf same lawful

/-- What is resolved inside of an expression of a statement does not redirect the statement. -/
theorem redirect_of_texts {id c : NodeId} (mem : c ∈ t.children id) {found : List String}
    (run : texts (resolveWithin depth) (t.children c) w = (.ok found, w')) :
    (w'.tree.node id).redirect = (w.tree.node id).redirect := by
  have leads := (steady_texts (fun g below => steady_resolveWithin wf depth (wf.bound c g below)) same
    lawful).1
  rw [run] at leads
  refine (leads.frame id).resolve_right ?_
  rintro ⟨j, ⟨g, child, below⟩, up⟩
  rw [Tree.parent?_of_bare same] at up
  obtain rfl := wf.apart (wf.parent?_of_mem mem) up ((wf.below_of_mem child).trans below) (t.below_self j)
  exact wf.not_below_child child below

/-- Nothing is remembered of a variable when expressions are resolved. -/
theorem lookup_of_texts {ids : List NodeId} (inline : ∀ c ∈ ids, (t.category c).isInline)
    (bound : ∀ c ∈ ids, c < t.size) {answer : Except Error (List String)}
    (run : texts (resolveWithin depth) ids w = (answer, w')) (x : String) :
    w'.state.lookup x = w.state.lookup x := by
  have leads := (steady_texts (fun c mem => steady_resolveWithin wf depth (bound c mem)) same lawful).1
  rw [run] at leads
  have scope := leads.scope fun j c ⟨top, mem, under⟩ taken _ => by
    rw [Tree.takes_of_bare same] at taken
    have kind := wf.isInline_of_below (inline top mem) under
    rcases taken.1 with assign | assign <;> rw [assign] at kind <;> cases kind
  rw [State.lookup, leads.grows.config, scope, State.lookup]

end

/-- Only assignments are redirected. -/
theorem straight_of_lawful {w : Workspace} (same : w.tree.bare = t.bare) (lawful : w.tree.Lawful)
    {id : NodeId} (other : t.category id ≠ .assign) : (w.tree.node id).redirect = none := by
  rw [← Tree.category_of_bare same] at other
  exact lawful.redirect_eq_none other

/-- The rule of a call of a function keeps it as it is written. -/
theorem answer_of_call {w : Workspace} (same : w.tree.bare = t.bare) (lawful : w.tree.Lawful)
    {k : NodeId} (get : t.category k = .get) (free : Builtin.isReserved (t.node k).name = false)
    (unknown : w.state.lookup (t.node k).name = none) (found : List String) :
    (w.seed k).answer k found = .ok ⟨.join ((t.node k).name ++ "(") ", " ")",
      ((w.seed k).site k found).seed, []⟩ := by
  have leads := leads_seed (P := fun _ => True) w k
  have same' := leads.bare.trans same
  have category : ((w.seed k).tree.node k).category = .get :=
    (congrFun (Tree.category_of_bare same') k).trans get
  have name : ((w.seed k).site k found).name = (t.node k).name := Tree.name_of_bare same' k
  have straight := straight_of_lawful same' (leads.lawful lawful)
    (show t.category k ≠ .assign by rw [get]; nofun)
  have plain : Rule.builtinOf? (w.seed k).tree ((w.seed k).tree.node k) = none :=
    Rule.builtinOf?_eq_none straight (fun _ => Tree.name_of_bare same' k ▸ free) (by rw [category]; nofun)
  rw [answer, Rule.select_eq plain (show _ = some Rule.subscript by rw [category]; rfl), Rule.subscript, name,
    show ((w.seed k).site k found).lookup (t.node k).name = none from unknown, Site.verbatim, name]
  rfl

section

variable (wf : t.WellFormed) (spelt : t.Spelt .words) {depth : Nat} {w w' : Workspace}
  (same : w.tree.bare = t.bare) (lawful : w.tree.Lawful)
include wf spelt same lawful

/-- Children that are resolved hold their texts, which are not blank. -/
theorem read_of_texts (named : w.state.Named) {id : NodeId} (lt : id < t.size)
    (block : t.category id ≠ .block) (function : t.category id ≠ .function) {found : List String}
    (results : texts (resolveWithin depth) (t.children id) w = (.ok found, w')) :
    w'.tree.bare = t.bare ∧ w'.tree.Lawful ∧ (t.children id).map (fun c => (w'.tree.node c).text) = found
      ∧ ∀ a ∈ found, Solid a := by
  have bound : ∀ c ∈ t.children id, c < t.size := wf.bound id
  have inline : ∀ c ∈ t.children id, (t.category c).isInline := fun c => wf.isInline_child block function
  have steady : ∀ c ∈ t.children id, Steady t c (resolveWithin depth c) := fun c child =>
    steady_resolveWithin wf depth (bound c child)
  have leads := (steady_texts steady same lawful).1
  have read := texts_read wf (fun c child => retains_resolveWithin wf (bound c child)
      (Category.ne_of_isInline (inline c child)).1 (Category.ne_of_isInline (inline c child)).2) steady
    (fun c => wf.parent?_of_mem) (wf.nodup_children id) same lawful results
  have solid := solid_texts (maintains_resolveWithin State.lasting_named depth) (fun c child =>
    solid_resolveWithin wf spelt depth (bound c child) (Category.isTerm_of_admits
      (wf.shaped id lt).children block function (List.mem_map_of_mem child))) steady same lawful named found (by rw [results])
  rw [results] at leads
  exact ⟨leads.bare.trans same, leads.lawful lawful, read, solid⟩

/-- What resolving a call of a function gives, where no variable has its name. -/
theorem called_of_run (named : w.state.Named) {id k : NodeId} (mem : k ∈ t.children id)
    (get : t.category k = .get) (free : Builtin.isReserved (t.node k).name = false)
    (unknown : w.state.lookup (t.node k).name = none) {text : String}
    (run : resolveWithin depth k w = (.ok text, w')) : ∃ arguments, text = call (t.node k).name arguments
      ∧ (t.children k).map (fun a => (w'.tree.node a).text) = arguments
      ∧ (∀ a ∈ arguments, Solid a) ∧ (w'.tree.node id).redirect = (w.tree.node id).redirect := by
  have block : t.category k ≠ .block := by rw [get]; nofun
  have function : t.category k ≠ .function := by rw [get]; nofun
  obtain ⟨depth, found, w₁, rfl, results, applied⟩ := exists_run same block function run
  obtain ⟨same₁, lawful₁, read, solid⟩ := read_of_texts wf spelt same lawful named (wf.bound id k mem)
    block function results
  have lookup := lookup_of_texts wf same lawful (fun c => wf.isInline_child block function) (wf.bound k)
    results
  have straight := redirect_of_texts wf same lawful mem results
  have lengths : found.length = (w₁.tree.children k).length := by
    rw [length_of_texts results, Tree.children_of_bare same₁]
  obtain ⟨o, answer, rfl, others⟩ := exists_outcome lengths applied
  rw [answer_of_call same₁ lawful₁ get free ((lookup _).trans unknown) found] at answer
  cases answer
  have others := others nofun
  refine ⟨found, ?_, ?_, solid, ?_⟩
  · show (t.node k).name ++ "(" ++ Text.joined ", " ((w₁.seed k).site k found).texts ++ ")" = _
    rw [texts_site (by rw [Tree.size_of_bare same₁]; exact wf.bound id k mem) lengths]
    rfl
  · rw [← read]
    refine List.map_congr_left fun a child => ?_
    rw [others a fun eq => wf.not_below_child child (eq ▸ t.below_self a)]
  · rw [others id fun eq => wf.not_below_child mem (eq ▸ t.below_self id), straight]

/-- What resolving a destination gives. -/
theorem taker_of_run (worded : Worded t w) (stem : Single w.state.config.tempStem) {id x : NodeId}
    (mem : x ∈ t.children id) (destination : (t.category x).isDestination)
    (free : Builtin.isReserved (t.node x).name = false) {text : String}
    (run : resolveWithin depth x w = (.ok text, w')) :
    Taker text ∧ (w'.tree.node id).redirect = (w.tree.node id).redirect := by
  have block : t.category x ≠ .block := by rintro eq; rw [eq] at destination; cases destination
  have function : t.category x ≠ .function := by rintro eq; rw [eq] at destination; cases destination
  have lt : x < t.size := wf.bound id x mem
  have word : ∀ c ∈ (t.node x).name.toList, Token.isWordRest c :=
    spelt.plain x (Rule.isNamed_of_isDestination destination)
  obtain ⟨depth, found, w₁, rfl, results, applied⟩ := exists_run same block function run
  have steady : ∀ c ∈ t.children x, Steady t c (resolveWithin depth c) := fun c child =>
    steady_resolveWithin wf depth (wf.bound x c child)
  have leads := (steady_texts steady same lawful).1
  have straight := redirect_of_texts wf same lawful mem results
  have kids := voiced_texts wf (fun c child => voiced_resolveWithin wf spelt depth (wf.bound x c child))
    (fun c _ => types_resolveWithin wf depth c) steady (fun c => wf.parent?_of_mem) (wf.nodup_children x)
    worded
  rw [results] at leads kids
  have same₁ := leads.bare.trans same
  have lengths : found.length = (w₁.tree.children x).length := by
    rw [length_of_texts results, Tree.children_of_bare same₁]
  obtain ⟨o, answer, rfl, others⟩ := exists_outcome lengths applied
  have category : ((w₁.seed x).tree.node x).category = t.category x :=
    congrFun (Tree.category_of_bare ((w₁.bare_seed x).trans same₁)) x
  have name : ((w₁.seed x).site x found).name = (t.node x).name :=
    Tree.name_of_bare ((w₁.bare_seed x).trans same₁) x
  have plain : Rule.builtinOf? (w₁.seed x).tree ((w₁.seed x).tree.node x) = none := by
    have leads' := leads_seed (P := fun _ => True) w₁ x
    refine Rule.builtinOf?_eq_none (straight_of_lawful (leads'.bare.trans same₁)
      (leads'.lawful (leads.lawful lawful)) ?_) (fun _ => ?_) ?_
    · rintro eq
      rw [eq] at destination
      cases destination
    · rwa [Tree.name_of_bare ((w₁.bare_seed x).trans same₁)]
    · rintro eq
      rw [category.symm.trans eq] at destination
      cases destination
  have kept : o.Calm → (w'.tree.node id).redirect = (w.tree.node id).redirect := fun calm => by
    rw [others calm id fun eq => wf.not_below_child mem (eq ▸ t.below_self id), straight]
  cases kind : t.category x with
  | var =>
    rw [Workspace.answer, Rule.select_eq plain (show _ = some Rule.var by rw [category, kind]; rfl)] at answer
    obtain ⟨effects, written⟩ := Rule.var_calm answer
    refine ⟨.inl ?_, kept fun e mem => by rw [effects] at mem; cases mem⟩
    rwa [written, name]
  | set =>
    rw [Workspace.answer, Rule.select_eq plain (show _ = some Rule.subscript by rw [category, kind]; rfl)]
      at answer
    obtain ⟨effects, written⟩ := Rule.subscript_calm answer
    have phrases : ∀ o ∈ ((w₁.seed x).site x found).operands, Phrase w₁.state.idiom false o.text := by
      refine List.forall_mem_map.mpr fun pair there => ?_
      rw [Tree.children_of_bare ((w₁.bare_seed x).trans same₁)] at there
      have child := (List.of_mem_zip there).1
      have emits : Emits t w₁ pair.1 (.ok pair.2) := List.forall₂_zip kids.2 there
      unfold Emits at emits
      dsimp only at emits
      rw [if_pos (wf.isInline_child block function child)] at emits
      have phrase := emits.phrase
      rwa [Category.isListing_of_admits (wf.shaped x lt).children block (by rw [kind]; nofun) function
        (List.mem_map_of_mem child)] at phrase
    have stem' : Single w₁.state.idiom.stem := by
      show Single w₁.state.config.tempStem
      rwa [leads.grows.config]
    have items : ∃ items, ((w₁.seed x).site x found).written o = call (t.node x).name items
        ∧ ∀ i ∈ items, Phrase w₁.state.idiom false i := by
      rw [name] at written
      rcases written with plain | shifted
      · exact ⟨_, plain, List.forall_mem_map.mpr phrases⟩
      · refine ⟨_, shifted, List.forall_mem_map.mpr fun o mem => ?_⟩
        unfold Rule.indexText
        split
        · exact phrases o mem
        · exact Rule.phrase_zeroBased (phrases o mem)
    obtain ⟨items, eq, phrases⟩ := items
    exact ⟨.inr ⟨_, items, eq, word, fun i mem => (phrases i mem).single stem'⟩,
      kept fun e mem => by rw [effects] at mem; cases mem⟩
  | _ => rw [kind] at destination; cases destination

omit same lawful in
/-- What resolving several destinations gives. -/
theorem takers_of_texts {id : NodeId} : ∀ {ids : List NodeId} {w w' : Workspace} {found : List String},
    Worded t w → Single w.state.config.tempStem → ids ⊆ t.children id →
    (∀ x ∈ ids, (t.category x).isDestination) → (∀ x ∈ ids, Builtin.isReserved (t.node x).name = false) →
    texts (resolveWithin depth) ids w = (.ok found, w') →
    (∀ a ∈ found, Taker a) ∧ (w'.tree.node id).redirect = (w.tree.node id).redirect
  | [], _, _, _, _, _, _, _, _, run => by
    cases run
    exact ⟨nofun, rfl⟩
  | x :: ids, w, _, found, worded, stem, sub, destinations, free, run => by
    obtain ⟨mem, sub'⟩ := List.cons_subset.mp sub
    obtain ⟨destination, destinations'⟩ := List.forall_mem_cons.mp destinations
    obtain ⟨freeHere, freeThere⟩ := List.forall_mem_cons.mp free
    have lt : x < t.size := wf.bound id x mem
    have next := (voiced_resolveWithin wf spelt depth lt w worded).1
    have leads := (steady_resolveWithin wf depth lt).leads w worded.bare worded.lawful
    cases result : resolveWithin depth x w with
    | mk answer w₁ =>
    rw [result] at next leads
    cases answer with
    | error e =>
      rw [texts_of_error result] at run
      cases run
    | ok text =>
      have here := taker_of_run wf spelt worded.bare worded.lawful worded stem mem destination freeHere
        result
      rw [texts_of_ok result] at run
      cases rest : texts (resolveWithin depth) ids w₁ with
      | mk answers w₂ =>
      rw [rest] at run
      cases answers with
      | error e => cases run
      | ok more =>
        cases run
        have there := takers_of_texts next (leads.grows.config ▸ stem) sub' destinations' freeThere rest
        exact ⟨List.forall_mem_cons.mpr ⟨here.1, there.1⟩, there.2.trans here.2⟩

end

end Resolving

/-! ## Statements that call functions -/

/-- The statement calls a function at `k`, and these are what takes its values; one alone is
written without brackets. -/
structure Tree.Calls (t : Tree) (id : NodeId) (destinations : List NodeId) (k : NodeId) : Prop where
  children : t.children id = destinations ++ [k]
  get : t.category k = .get
  kind : t.category id = .statement ∨ t.category id = .assign
    ∨ t.category id = .assigns ∧ destinations.length ≠ 1

namespace Tree.Calls

variable {id k : NodeId} {destinations : List NodeId} (calls : t.Calls id destinations k)
  (wf : t.WellFormed) (lt : id < t.size)
include calls wf lt

theorem eq_nil_of_statement (statement : t.category id = .statement) : destinations = [] := by
  have admits := (wf.shaped id lt).children
  rw [calls.children, List.map_append, statement] at admits
  have one := eq_of_beq (Bool.and_eq_true _ _ |>.mp admits).1
  simpa using one

theorem exists_of_assign (assign : t.category id = .assign) : ∃ x, destinations = [x] := by
  have admits := (wf.shaped id lt).children
  rw [calls.children, List.map_append, assign] at admits
  match destinations, admits with
  | [x], _ => exact ⟨x, rfl⟩
  | _ :: _ :: _, admits => simp [Category.admits] at admits

/-- What takes the values can be assigned to. -/
theorem isDestination : ∀ x ∈ destinations, (t.category x).isDestination := by
  intro x mem
  rcases calls.kind with statement | assigned
  · rw [calls.eq_nil_of_statement wf lt statement] at mem
    cases mem
  · refine wf.isDestination_of_takes (show t.Takes id x from ⟨assigned.imp_right And.left, ?_⟩)
    rw [calls.children, List.dropLast_concat]
    exact mem

/-- No name of it is reserved if the statement is translated. -/
theorem free (accepted : ¬t.Refused id) :
    ∀ x ∈ destinations, Builtin.isReserved (t.node x).name = false := by
  refine fun x mem => Bool.eq_false_iff.mpr fun reserved => accepted ?_
  rcases calls.kind with statement | assign | ⟨assigns, -⟩
  · rw [calls.eq_nil_of_statement wf lt statement] at mem
    cases mem
  · obtain ⟨y, rfl⟩ := calls.exists_of_assign wf lt assign
    obtain rfl := List.mem_singleton.mp mem
    exact .reserved assign calls.children reserved
  · exact .someReserved assigns calls.children mem reserved

end Tree.Calls

/-- The call of a statement, as the parts of the statement read: what is returned is taken, and
what is not is passed behind the arguments. -/
def Tree.callLine (t : Tree) (destinations : List NodeId) (k : NodeId) : CallLine where
  taker := (returned? destinations).map fun x => (t.node x).text
  name := (t.node k).name
  arguments := (t.children k ++ referred destinations).map fun a => (t.node a).text

namespace Resolving

theorem node_seed_redirect (w : Workspace) (id i : NodeId) :
    ((w.seed id).tree.node i).redirect = (w.tree.node i).redirect :=
  ((leads_seed (P := fun _ => False) w id).frame i).resolve_right fun ⟨_, never, _⟩ => never

/-- The operands of a statement that calls a function: what takes the values, and the call. -/
theorem exists_operands {w : Workspace} (same : w.tree.bare = t.bare) {id k : NodeId}
    {destinations : List NodeId} (ids : t.children id = destinations ++ [k]) {outs : List String}
    (lengths : outs.length = destinations.length) (text : String) : ∃ ds, (w.site id (outs ++ [text])).operands
        = ds ++ [⟨k, w.tree.node k, text⟩]
      ∧ ds.map (·.text) = outs ∧ ∀ d ∈ ds, d.id ∈ destinations ∧ d.node = w.tree.node d.id := by
  refine ⟨(destinations.zip outs).map fun pair => ⟨pair.1, w.tree.node pair.1, pair.2⟩, ?_, ?_, ?_⟩
  · show ((w.tree.children id).zip _).map _ = _
    rw [Tree.children_of_bare same, ids, List.zip_append lengths.symm, List.map_append]
    rfl
  · rw [List.map_map]
    exact List.map_snd_zip (Nat.le_of_eq lengths)
  · refine List.forall_mem_map.mpr fun pair mem => ⟨(List.of_mem_zip mem).1, rfl⟩

/-- A node that no built-in takes is answered by the rule of its category. -/
theorem calm_of_answer {w : Workspace} {id : NodeId} {texts : List String} {rule : Rule}
    {text : String} {o : Outcome} (plain : Rule.builtinOf? w.tree (w.tree.node id) = none)
    (own : Rule.ofCategory? (w.tree.node id).category = some rule)
    (runs : ∃ o, rule (w.site id texts) = .ok o ∧ o.Calm ∧ (w.site id texts).written o = text)
    (answer : w.answer id texts = .ok o) : o.Calm ∧ (w.site id texts).written o = text := by
  rw [Workspace.answer, Rule.select_eq plain own] at answer
  obtain ⟨o', ok, rest⟩ := runs
  cases answer.symm.trans ok
  exact rest

/-- What takes several values is no built-in, if the name of the call is free. -/
theorem builtinOf?_of_assigns {tree : Tree} {id k : NodeId} (assigns : (tree.node id).category = .assigns)
    (last : (tree.children id).getLast? = some k) (get : (tree.node k).category = .get)
    (straight : (tree.node id).redirect = none) (free : Builtin.isReserved (tree.node k).name = false) :
    Rule.builtinOf? tree (tree.node id) = none := by
  unfold Rule.builtinOf?
  rw [straight, assigns]
  dsimp only
  rw [show (tree.node id).children.getLast? = some k from last]
  dsimp only
  rw [get]
  exact Option.not_isSome_iff_eq_none.mp (Bool.eq_false_iff.mp free)

/-- The rule of a statement that calls a function, and its line. -/
theorem answer_of_calls {w : Workspace} (same : w.tree.bare = t.bare)
    (wf : t.WellFormed) {id k : NodeId} (lt : id < t.size) {destinations : List NodeId}
    (calls : t.Calls id destinations k) (straight : (w.tree.node id).redirect = none)
    (free : ∀ x ∈ k :: destinations, Builtin.isReserved (t.node x).name = false)
    (unknown : w.state.lookup (t.node k).name = none) {outs arguments : List String}
    (lengths : outs.length = destinations.length)
    (read : (t.children k).map (fun a => (w.tree.node a).text) = arguments) {o : Outcome}
    (answer : (w.seed id).answer id (outs ++ [call (t.node k).name arguments]) = .ok o) :
    o.Calm ∧ ((w.seed id).site id (outs ++ [call (t.node k).name arguments])).written o
      = CallLine.written ⟨returned? outs, (t.node k).name, arguments ++ referred outs⟩ := by
  have seeded := leads_seed (P := fun _ => False) w id
  have same' : (w.seed id).tree.bare = t.bare := seeded.bare.trans same
  have ids := calls.children
  have get := calls.get
  have category : ((w.seed id).tree.node id).category = t.category id :=
    congrFun (Tree.category_of_bare same') id
  have straight' : ((w.seed id).tree.node id).redirect = none := (node_seed_redirect w id id).trans straight
  have names : ∀ i, ((w.seed id).tree.node i).name = (t.node i).name := Tree.name_of_bare same'
  obtain ⟨freeCall, freeOthers⟩ := List.forall_mem_cons.mp free
  obtain ⟨ds, operands, texts, nodes⟩ := exists_operands same' ids lengths (call (t.node k).name arguments)
  have count : ds.length = destinations.length := by rw [← lengths, ← texts, List.length_map]
  have freeAll : ∀ d ∈ ds, Builtin.isReserved d.node.name = false := fun d mem => by
    rw [(nodes d mem).2, names]
    exact freeOthers d.id (nodes d mem).1
  rcases calls.kind with statement | assign | ⟨assigns, several⟩
  case inl =>
    rw [statement] at category
    have nothing := calls.eq_nil_of_statement wf lt statement
    obtain rfl : ds = [] := List.eq_nil_of_length_eq_zero (by rw [count, nothing]; rfl)
    obtain rfl : outs = [] := texts.symm
    have plain : Rule.builtinOf? (w.seed id).tree ((w.seed id).tree.node id) = none :=
      Rule.builtinOf?_eq_none straight' (by rw [category]; nofun) (by rw [category]; nofun)
    refine calm_of_answer plain (show _ = some Rule.statement by rw [category]; rfl) ?_ answer
    rw [show arguments ++ referred [] = arguments from List.append_nil _]
    exact Rule.written_statement operands
  case inr.inl =>
    rw [assign] at category
    obtain ⟨x, one⟩ := calls.exists_of_assign wf lt assign
    obtain ⟨d, rfl⟩ := List.length_eq_one_iff.mp (count.trans (by rw [one]; rfl))
    obtain rfl : outs = [d.text] := texts.symm
    have plain : Rule.builtinOf? (w.seed id).tree ((w.seed id).tree.node id) = none :=
      Rule.builtinOf?_eq_none straight' (by rw [category]; nofun) (by rw [category]; nofun)
    refine calm_of_answer plain (show _ = some Rule.assign by rw [category]; rfl) ?_ answer
    rw [show arguments ++ referred [d.text] = arguments from List.append_nil _]
    exact Rule.written_assign operands (freeAll d (by simp))
  case inr.inr =>
    rw [assigns] at category
    have last : ((w.seed id).tree.children id).getLast? = some k := by
      rw [Tree.children_of_bare same', ids, List.getLast?_concat]
    have getCall : ((w.seed id).tree.node k).category = .get :=
      (congrFun (Tree.category_of_bare same') k).trans get
    have plain : Rule.builtinOf? (w.seed id).tree ((w.seed id).tree.node id) = none :=
      builtinOf?_of_assigns category last getCall straight' (by rwa [names])
    have foreign : Rule.isForeignCall ((w.seed id).site id (outs ++ [call (t.node k).name arguments]))
        ((w.seed id).tree.node k) := by
      have lookup : ((w.seed id).site id (outs ++ [call (t.node k).name arguments])).lookup
          (t.node k).name = none := unknown
      unfold Rule.isForeignCall Site.isVariable
      rw [getCall, names, freeCall, lookup]
      rfl
    have passed : ((w.seed id).tree.node k).children.map (fun a => ((w.seed id).tree.node a).text)
        = arguments := by
      rw [show ((w.seed id).tree.node k).children = t.children k from
        congrFun (Tree.children_of_bare same') k, ← read]
      exact List.map_congr_left fun a _ => seeded.text fun _ never => never.elim
    obtain ⟨none, all⟩ := referred_eq_self (lengths ▸ several)
    obtain ⟨o', ok, calm, written⟩ := Rule.written_assigns operands freeAll foreign
    refine calm_of_answer plain (show _ = some Rule.assigns by rw [category]; rfl)
      ⟨o', ok, calm, written.trans ?_⟩ answer
    rw [none, all, texts, names]
    show call _ (((w.seed id).tree.node k).children.map (fun a => ((w.seed id).tree.node a).text) ++ outs)
      ++ " ;" = _
    rw [passed]
    rfl

/-- What resolving a statement that calls a function gives. -/
theorem passed_of_run (wf : t.WellFormed) (spelt : t.Spelt .words) {depth : Nat} {w w' : Workspace}
    (worded : Worded t w) (named : w.state.Named) (stem : Single w.state.config.tempStem) {id k : NodeId}
    (lt : id < t.size) {destinations : List NodeId} (calls : t.Calls id destinations k)
    (straight : (w.tree.node id).redirect = none)
    (free : ∀ x ∈ k :: destinations, Builtin.isReserved (t.node x).name = false)
    (unknown : w.state.lookup (t.node k).name = none) {text : String}
    (run : resolveWithin depth id w = (.ok text, w')) :
    text = (w'.tree.callLine destinations k).written
      ∧ (∀ a ∈ (w'.tree.callLine destinations k).arguments, Solid a)
      ∧ ∀ x ∈ (w'.tree.callLine destinations k).taker, Taker x := by
  have same := worded.bare
  have lawful := worded.lawful
  have ids := calls.children
  have block : t.category id ≠ .block := by
    rcases calls.kind with eq | eq | eq <;> first | (rw [eq]; nofun) | (rw [eq.1]; nofun)
  have function : t.category id ≠ .function := by
    rcases calls.kind with eq | eq | eq <;> first | (rw [eq]; nofun) | (rw [eq.1]; nofun)
  obtain ⟨depth, found, w₂, rfl, results, applied⟩ := exists_run same block function run
  obtain ⟨same₂, lawful₂, read, solid⟩ := read_of_texts wf spelt same lawful named lt block function results
  have inline : ∀ c ∈ t.children id, (t.category c).isInline := fun c => wf.isInline_child block function
  have lookup := lookup_of_texts wf same lawful inline (wf.bound id) results (t.node k).name
  have lengths : found.length = (w₂.tree.children id).length := by
    rw [length_of_texts results, Tree.children_of_bare same₂]
  rw [ids] at results
  have sub : destinations ⊆ t.children id := ids ▸ List.subset_append_left _ _
  have child : k ∈ t.children id := by rw [ids]; simp
  obtain ⟨outs, kt, w₁, rfl, first, second⟩ := texts_concat results
  have takers := takers_of_texts wf spelt worded stem sub (calls.isDestination wf lt)
    (List.forall_mem_cons.mp free).2 first
  -- the call is resolved when the destinations are
  have steady : ∀ c ∈ destinations, Steady t c (resolveWithin depth c) := fun c mem =>
    steady_resolveWithin wf depth (wf.bound id c (sub mem))
  have leads := (steady_texts steady same lawful).1
  have names := maintains_texts (maintains_resolveWithin State.lasting_named depth) destinations [] w named
  have before := lookup_of_texts wf same lawful (fun c mem => inline c (sub mem))
    (fun c mem => wf.bound id c (sub mem)) first (t.node k).name
  rw [first] at leads names
  obtain ⟨arguments, rfl, passed, here, straight'⟩ := called_of_run wf spelt (leads.bare.trans same)
    (leads.lawful lawful) names child calls.get (List.forall_mem_cons.mp free).1 (before.trans unknown) second
  obtain ⟨o, answer, rfl, others⟩ := exists_outcome lengths applied
  obtain ⟨calm, written⟩ := answer_of_calls same₂ wf lt calls
    (straight'.trans (takers.2.trans straight)) free (lookup.trans unknown) (length_of_texts first) passed
    answer
  -- nothing below the statement changes with its own rule
  have apart : ∀ c ∈ t.children id, ∀ i, t.Below c i → i ≠ id := fun c mem i below eq =>
    wf.not_below_child mem (eq ▸ below)
  have outputs : destinations.map (fun x => (w'.tree.node x).text) = outs := by
    rw [ids, List.map_append] at read
    rw [← (List.append_inj read (by rw [List.length_map, length_of_texts first])).1]
    exact List.map_congr_left fun x mem => by rw [others calm x (apart x (sub mem) x (t.below_self x))]
  have inputs : (t.children k).map (fun a => (w'.tree.node a).text) = arguments := by
    rw [← passed]
    exact List.map_congr_left fun a mem => by rw [others calm a (apart k child a (wf.below_of_mem mem))]
  have bare : w'.tree.bare = t.bare := by
    have leads := (steady_resolveWithin wf (depth + 1) lt).leads w same lawful
    rw [run] at leads
    exact leads.bare.trans same
  have line : w'.tree.callLine destinations k
      = ⟨returned? outs, (t.node k).name, arguments ++ referred outs⟩ := by
    rw [Tree.callLine, List.map_append, Tree.children_of_bare bare, Tree.name_of_bare bare, inputs,
      ← returned?_map, ← referred_map, outputs]
  rw [line]
  refine ⟨written, List.forall_mem_append.mpr ⟨here, fun a mem => ?_⟩, fun x mem => ?_⟩
  · exact solid a (List.mem_append_left _ (mem_of_referred mem))
  · exact takers.1 x (mem_of_returned? mem)

end Resolving

namespace Visit

/-- The lines of a statement that has a text. -/
theorem lines_of_run {v : Visit} {text : String} {after : Workspace}
    (run : resolveWithin v.depth v.statement { v.found with state := v.found.state.withPending [] }
      = (.ok text, after)) :
    v.lines = after.state.pending ++ Text.lines text ∧ v.left.tree = after.tree := by
  unfold lines left statementLines
  dsimp only
  rw [run]
  exact ⟨rfl, rfl⟩

/-- A function that has a text has it from its rule, for which the children are resolved in a scope
of their own. -/
theorem Begins.exists_steps {block : NodeId} {v : Visit} (begins : v.Begins t block)
    (function : t.category v.statement = .function) {text : String} {after : Workspace}
    (run : resolveWithin v.depth v.statement { v.found with state := v.found.state.withPending [] }
      = (.ok text, after)) : ∃ depth found w last, v.depth = depth + 1
      ∧ texts (resolveWithin depth) (t.children v.statement)
        { v.found with state := (v.found.state.withPending []).pushScope } = (.ok found, w)
      ∧ applyRule v.statement found w = (.ok text, last)
      ∧ after = { last with state := last.state.popScope } := by
  have bare := begins.bare
  obtain ⟨depth, deep⟩ := begins.enough.exists_succ
  obtain ⟨id, _, w⟩ := v
  obtain rfl : _ = depth + 1 := deep
  rw [resolveWithin_function (w := { w with state := w.state.withPending [] }) bare depth function] at run
  unfold inScope node at run
  dsimp only at run
  rw [Tree.children_of_bare bare] at run
  cases results : texts (resolveWithin depth) (t.children id)
      { w with state := (w.state.withPending []).pushScope } with
  | mk answers w₁ =>
  rw [results] at run
  cases answers with
  | error e => cases run
  | ok found =>
  dsimp only at run
  cases applied : applyRule id found w₁ with
  | mk answer last =>
  rw [applied] at run
  cases run
  exact ⟨depth, found, w₁, last, rfl, results, applied, rfl⟩

/-- The text of a body is that of the statements in it, each in its turn. -/
theorem Begins.text_body (wf : t.WellFormed) {block : NodeId} {v : Visit} (begins : v.Begins t block)
    (function : t.category v.statement = .function) {p r b : NodeId}
    (ids : t.children v.statement = [p, r, b]) {depth : Nat} (deep : v.depth = depth + 1) {x y z : String}
    {w' : Workspace} (results : texts (resolveWithin depth) (t.children v.statement)
      { v.found with state := (v.found.state.withPending []).pushScope } = (.ok [x, y, z], w')) :
    z = Text.joined "\n" (v.inner.flatMap (·.lines)) ∧ v.inner.map (·.statement) = t.children b := by
  have bare := begins.bare
  have lawful := begins.lawful
  have enough := begins.enough
  rw [deep] at enough
  obtain ⟨id, _, w⟩ := v
  obtain rfl : _ = depth + 1 := deep
  have lt : id < t.size := wf.bound block id begins.mem
  obtain ⟨p', r', b', ids', -, -, body⟩ := wf.children_function lt function
  obtain ⟨rfl, rfl, rfl⟩ : p' = p ∧ r' = r ∧ b' = b := by simpa using ids'.symm.trans ids
  have child : ∀ c ∈ [p', r', b'], c ∈ t.children id := fun c mem => by rwa [ids]
  obtain ⟨depth, rfl⟩ := (enough.child wf (child b' (by simp))).exists_succ
  rw [ids] at results
  obtain ⟨found, z', start, eq, first, second⟩ := texts_concat
    (show texts _ ([p', r'] ++ [b']) _ = _ from results)
  obtain rfl : z = z' := List.singleton_injective (List.append_inj' (show [x, y] ++ [z] = found ++ [z'] from eq) rfl).2
  have steady : ∀ c ∈ [p', r'], Steady t c (resolveWithin (depth + 1) c) := fun c sub =>
    steady_resolveWithin wf (depth + 1) (wf.bound id c (child c (List.mem_append_left [b'] sub)))
  have leads := (steady_texts (w := { w with state := (w.state.withPending []).pushScope }) steady bare
    lawful).1
  rw [first] at leads
  have same := leads.bare.trans bare
  rw [resolveWithin_block same depth body] at second
  unfold Resolving.block at second
  rw [Tree.children_of_bare same] at second
  have inside : Visit.inner ⟨id, depth + 2, w⟩ = ofBlock depth (t.children b') start := by
    unfold Visit.inner
    dsimp only
    rw [body?_of_function bare function ids, show texts _ _ _ = _ from first]
  rw [inside, lines_ofBlock, statements_ofBlock]
  exact ⟨(Except.ok.inj (congrArg Prod.fst second)).symm, rfl⟩

variable (wf : t.WellFormed) (spelt : t.Spelt .words) {config : Config} {block : NodeId} {v : Visit}
  (due : v.Due t config block)
include wf due

omit wf in
theorem Due.opened : Worded t { v.found with state := v.found.state.withPending [] } :=
  due.worded.state (s := v.found.state.withPending []) (v.found.state.grows_withPending []) rfl nofun

/-- A statement that is translated has a text. -/
theorem Due.exists_text (accepted : ¬t.Refused v.statement) : ∃ text after,
    resolveWithin v.depth v.statement { v.found with state := v.found.state.withPending [] }
      = (.ok text, after) :=
  due.begins.exists_text wf accepted

include spelt

theorem Due.passes (stem : Single config.tempStem)
    {destinations : List NodeId} {k : NodeId} (calls : t.Calls v.statement destinations k)
    (accepted : ¬t.Refused v.statement)
    (free : Builtin.isReserved (t.node k).name = false)
    (unknown : v.found.state.lookup (t.node k).name = none) : ∃ hoisted line,
      v.lines = hoisted ++ [line] ∧ readLine? line = some (v.left.tree.callLine destinations k) := by
  have opened := due.opened
  obtain ⟨text, after, run⟩ := due.exists_text wf accepted
  obtain ⟨lines, tree⟩ := lines_of_run run
  obtain ⟨id, depth, w⟩ := v
  have same : w.state.config = config := due.config
  have lt : id < t.size := wf.bound block id due.mem
  have last := (voiced_resolveWithin wf spelt depth lt _ opened).1
  rw [show resolveWithin depth id _ = _ from run] at last
  obtain ⟨rfl, solid, taker⟩ := passed_of_run wf spelt opened due.named (same ▸ stem) lt calls
    (due.straight id (t.below_self id)) (List.forall_mem_cons.mpr ⟨free, calls.free wf lt accepted⟩) unknown run
  have leads := (steady_resolveWithin wf depth lt).leads _ opened.bare opened.lawful
  rw [show resolveWithin depth id _ = _ from run] at leads
  have child : k ∈ t.children id := by rw [calls.children]; simp
  have bound := wf.bound id k child
  have name : (after.tree.callLine destinations k).name = (t.node k).name := Tree.name_of_bare last.bare k
  have word : ∀ c ∈ (after.tree.callLine destinations k).name.toList, Token.isWordRest c := by
    rw [name]
    exact spelt.plain k (by rw [calls.get]; rfl)
  have some : (after.tree.callLine destinations k).name ≠ "" := by
    rw [name]
    exact (wf.shaped k bound).name.mpr (by rw [calls.get]; rfl)
  have single : ∀ i, i ∈ t.children k ∨ i ∈ destinations →
      Phrase after.state.idiom false (after.tree.node i).text := by
    rintro i (argument | output)
    · exact last.phrase_argument wf calls.get argument
    · have destination := calls.isDestination wf lt i output
      have plain : (t.category i).isInline ∧ (t.category i).isListing = false := by
        generalize t.category i = c at destination
        cases c <;> first | exact ⟨rfl, rfl⟩ | cases destination
      have phrase := last.texts i plain.1
      rwa [plain.2] at phrase
  have phrases : ∀ a ∈ (after.tree.callLine destinations k).arguments, Phrase after.state.idiom false a := by
    refine List.forall_mem_map.mpr fun i mem => single i ?_
    rw [Tree.children_of_bare last.bare] at mem
    exact (List.mem_append.mp mem).imp_right mem_of_referred
  have target : ∀ x ∈ (after.tree.callLine destinations k).taker, Phrase after.state.idiom false x := by
    intro x mem
    obtain ⟨i, here, rfl⟩ := Option.map_eq_some_iff.mp mem
    exact single i (.inr (mem_of_returned? here))
  have stem' : Single after.state.idiom.stem := by
    show Single after.state.config.tempStem
    rw [leads.grows.config]
    exact same ▸ stem
  refine ⟨after.state.pending, (after.tree.callLine destinations k).written, ?_, ?_⟩
  · rw [lines]
    have isLine : ∀ l ∈ [(after.tree.callLine destinations k).written], Text.IsLine l :=
      List.forall_mem_singleton.mpr (CallLine.isLine_written word last.stem phrases target)
    exact congrArg _ (Text.lines_joined isLine)
  · rw [tree]
    exact CallLine.readLine?_written word some (fun a mem => (phrases a mem).single stem') solid taker

/-- What a statement contributes are lines. -/
theorem Due.isLine : ∀ l ∈ v.lines, Text.IsLine l := by
  have lt := wf.bound block v.statement due.mem
  obtain ⟨worded, spread⟩ := spread_statementLines (wf.isStatement_child due.kind due.mem)
    (voiced_resolveWithin wf spelt v.depth lt) (steady_resolveWithin wf v.depth lt) due.worded
  exact spread.laid.isLine worded.stem

/-- The lines of a function that is defined: in its body those of the statements there. -/
theorem Due.defines (function : t.category v.statement = .function) {p r b : NodeId}
    (ids : t.children v.statement = [p, r, b]) : ∃ site above head below,
      v.lines = above ++ (head :: "\x7b" :: (v.inner.flatMap (·.lines) ++ below) ++ ["\x7d"])
      ∧ readSignature? head = some ⟨Rule.resultType site (t.namesBelow r), (t.node v.statement).name,
        Rule.parameters site (t.namesBelow p) (t.namesBelow r)⟩ := by
  have opened := due.opened
  obtain ⟨text, after, run⟩ := due.exists_text wf fun refused => by
    rcases refused.category with other | other <;> rw [function] at other <;> cases other
  have lines := (lines_of_run run).1
  have inner := due.inner wf spelt function ids
  obtain ⟨depth, found, w₁, final, deep, results, rule, rfl⟩ := due.begins.exists_steps function run
  obtain ⟨id, _, w⟩ := v
  obtain rfl : _ = depth + 1 := deep
  have lt : id < t.size := wf.bound block id due.mem
  obtain ⟨p', r', b', ids', params, returns, body⟩ := wf.children_function lt function
  obtain ⟨rfl, rfl, rfl⟩ : p' = p ∧ r' = r ∧ b' = b := by simpa using ids'.symm.trans ids
  have child : ∀ c ∈ [p', r', b'], c < t.size := fun c mem => wf.bound id c (by rwa [ids])
  obtain ⟨site, x, y, ls, last, name, rfl, isLine, applied, worded', laid⟩ := laid_function wf spelt lt
    function ids opened.pushScope (fun c mem => voiced_resolveWithin wf spelt depth (wf.bound id c mem))
    (fun c _ => types_resolveWithin wf depth c) (fun c mem => steady_resolveWithin wf depth (wf.bound id c mem))
    results
  rw [applied] at rule
  cases rule
  -- the last child is the body, whose lines are those of the statements there
  have whole : ls = (Visit.inner ⟨id, depth + 1, w⟩).flatMap (·.lines) := by
    have same := congrArg Text.lines (due.begins.text_body wf function ids rfl results).1
    rwa [Text.lines_joined isLine, Text.lines_joined] at same
    refine List.forall_mem_flatMap.mpr fun v' mem => ?_
    exact (inner v' mem).isLine wf spelt
  have named : (t.category id).isNamed := by rw [function]; rfl
  refine ⟨site, final.state.popScope.pending, Rule.signature site (t.namesBelow p') (t.namesBelow r'),
    Rule.closing (t.namesBelow r') ls, ?_, ?_⟩
  · rw [lines, Text.lines_joined (laid.isLine worded'.stem), ← whole]
  · rw [Rule.readSignature?_signature (name ▸ (wf.shaped id lt).name.mpr named)
      (name ▸ spelt.plain id named) (words_namesBelow spelt wf (child p' (by simp)) (.inl params))
      (words_namesBelow spelt wf (child r' (by simp)) (.inr returns)), name]

end Visit

namespace Translator

variable {source : String} (parsed : Tree.parse source = .ok t) {config : Config}
  (line : '\n' ∉ config.tempStem.toList)
include parsed line

/-- The lines of every statement are emitted, those in the body of a function among its own. -/
theorem emitted_of_mem_all {v : Visit} (mem : v ∈ Visit.all ⟨t, .ofConfig config⟩) :
    ∀ l ∈ v.lines, l ∈ ((⟨.ofConfig config⟩ : Translator).translate t).1.statements := by
  have wf := Tree.wellFormed_of_parsed parsed
  obtain ⟨root, -, -, visits, run⟩ := visits_translate wf config
  have whole : ((⟨.ofConfig config⟩ : Translator).translate t).1.statements
      = (Visit.ofRoot ⟨t, .ofConfig config⟩).flatMap (·.lines) := by
    rw [visits, Visit.lines_ofBlock]
    exact congrArg Prod.fst run
  obtain ⟨root, due⟩ := Visit.exists_due_ofRoot parsed line
  obtain ⟨top, there, mem⟩ := List.mem_flatMap.mp mem
  have outer : ∀ l ∈ v.lines, l ∈ top.lines := by
    rcases List.mem_cons.mp mem with rfl | inside
    · exact fun l here => here
    · by_cases function : t.category top.statement = .function
      · obtain ⟨p, r, b, ids, -⟩ := wf.children_function (wf.bound root _ (due top there).mem) function
        obtain ⟨site, above, head, below, lines, -⟩ := (due top there).defines wf
          (Tree.raw_of_parse parsed).spelt_words function ids
        intro l here
        rw [lines]
        have within := List.mem_flatMap.mpr ⟨v, inside, here⟩
        simp [within]
      · rw [Visit.inner_of_ne (due top there).worded.bare function] at inside
        exact absurd inside List.not_mem_nil
  intro l here
  rw [whole]
  exact List.mem_flatMap.mpr ⟨top, there, outer l here⟩

/-- A call of a function fits the definition of that function, unless it is assigned to one
destination in brackets.  The arguments come first and then what takes the other values, in
order, as the parameters do; the name of the function is neither reserved nor that of a variable. -/
theorem calls_fit (stem : Single config.tempStem) {definition caller : Visit}
    (defined : definition ∈ Visit.all ⟨t, .ofConfig config⟩) (called : caller ∈ Visit.all ⟨t, .ofConfig config⟩)
    (function : t.category definition.statement = .function) {params returns body : NodeId}
    (ids : t.children definition.statement = [params, returns, body]) {destinations : List NodeId}
    {k : NodeId} (calls : t.Calls caller.statement destinations k)
    (named : (t.node k).name = (t.node definition.statement).name)
    (free : Builtin.isReserved (t.node k).name = false)
    (unknown : caller.found.state.lookup (t.node k).name = none) (accepted : ¬t.Refused caller.statement)
    (inputs : (t.children k).length = (t.children params).length)
    (outputs : destinations.length = (t.children returns).length) :
    let emitted := ((⟨.ofConfig config⟩ : Translator).translate t).1.statements
    (∀ l ∈ definition.lines ++ caller.lines, l ∈ emitted)
      ∧ ∃ above head rest signature hoisted l call, definition.lines = above ++ head :: "\x7b" :: rest
      ∧ readSignature? head = some signature ∧ caller.lines = hoisted ++ [l] ∧ readLine? l = some call
      ∧ call.Fits signature
      ∧ call.arguments = (t.children k ++ referred destinations).map (fun a => (caller.left.tree.node a).text)
      ∧ ∃ type : String → String, signature.parameters
        = (t.namesBelow params).map (fun x => type x ++ " " ++ x)
          ++ (referred (t.namesBelow returns)).map fun y => type y ++ "& " ++ y := by
  have wf := Tree.wellFormed_of_parsed parsed
  have spelt := (Tree.raw_of_parse parsed).spelt_words
  obtain ⟨block, dueHere⟩ := Visit.exists_due parsed line definition defined
  obtain ⟨block', dueThere⟩ := Visit.exists_due parsed line caller called
  obtain ⟨site, above, head, below, lines, signature⟩ := dueHere.defines wf spelt function ids
  obtain ⟨hoisted, l, lines', read⟩ := dueThere.passes wf spelt stem calls accepted free unknown
  have bare : caller.left.tree.bare = t.bare :=
    (leads_statementLines (steady_resolveWithin wf caller.depth (wf.bound block' _ dueThere.mem))
      dueThere.worded.bare dueThere.worded.lawful).bare.trans dueThere.worded.bare
  have name : (caller.left.tree.node k).name = (t.node k).name := Tree.name_of_bare bare k
  have arguments : (caller.left.tree.callLine destinations k).arguments
      = (t.children k ++ referred destinations).map fun a => (caller.left.tree.node a).text := by
    rw [Tree.callLine, Tree.children_of_bare bare]
  have counts : (t.namesBelow params).length = (t.children k).length
      ∧ (t.namesBelow returns).length = destinations.length := by
    rw [Tree.namesBelow, Tree.namesBelow, List.length_map, List.length_map]
    exact ⟨inputs.symm, outputs.symm⟩
  intro emitted
  refine ⟨List.forall_mem_append.mpr ⟨emitted_of_mem_all parsed line defined,
    emitted_of_mem_all parsed line called⟩, above, head, _, _, hoisted, l, _, lines, signature, lines',
    read, ⟨?_, ?_, ?_⟩, arguments, Rule.declaredType site, rfl⟩
  · exact name.trans named
  · rw [arguments]
    simp only [Rule.parameters, List.length_map, List.length_append, length_referred, counts]
  · rw [Rule.resultType_ne_void, isSome_returned?, counts.2, ← isSome_returned?]
    show ((returned? destinations).map _).isSome ↔ _
    rw [Option.isSome_map]

omit parsed line in
/-- A function of two outputs, called with a variable and an element of one for them. -/
theorem calls_fit_outputs : ∃ t,
    Tree.parse "function [y,z]=f(a)\ny=a\nend\n[u,v(2)]=f('x, y')\n" = .ok t
    ∧ ∃ definition ∈ Visit.all ⟨t, .ofConfig {}⟩, ∃ caller ∈ Visit.all ⟨t, .ofConfig {}⟩,
      definition.lines = ["void f(TYPE a, TYPE& y, TYPE& z)", "\x7b", "y = a ;", "\x7d"]
      ∧ caller.lines = ["f(\"x, y\", u, v(2)) ;"]
      ∧ ∃ above head rest signature hoisted l call, definition.lines = above ++ head :: "\x7b" :: rest
      ∧ readSignature? head = some signature ∧ caller.lines = hoisted ++ [l] ∧ readLine? l = some call
      ∧ call.Fits signature := by
  have parses : ∃ t,
      Tree.parse "function [y,z]=f(a)\ny=a\nend\n[u,v(2)]=f('x, y')\n" = .ok t
      ∧ ∃ definition ∈ Visit.all ⟨t, .ofConfig {}⟩, ∃ caller ∈ Visit.all ⟨t, .ofConfig {}⟩,
        definition.lines = ["void f(TYPE a, TYPE& y, TYPE& z)", "\x7b", "y = a ;", "\x7d"]
        ∧ caller.lines = ["f(\"x, y\", u, v(2)) ;"]
        ∧ t.category definition.statement = .function ∧ t.children definition.statement = [6, 7, 8]
        ∧ t.category caller.statement = .assigns ∧ t.children caller.statement = [10, 11] ++ [13]
        ∧ t.category 13 = .get ∧ (t.node 13).name = "f" ∧ (t.node definition.statement).name = "f"
        ∧ (∀ x ∈ [10, 11], Builtin.isReserved (t.node x).name = false)
        ∧ caller.found.state.lookup "f" = none ∧ (t.children 13).length = (t.children 6).length
        ∧ (t.children 7).length = 2 := ⟨_, by cbv, by decide +kernel⟩
  obtain ⟨t, run, d, hd, c, hc, dLines, cLines, function, ids, assigns, children, get, name, name', free,
    unknown, inputs, outputs⟩ := parses
  have accepted : ¬t.Refused c.statement := by
    rw [Tree.refused_assigns_iff assigns children, name]
    rintro (⟨x, mem, reserved⟩ | ⟨-, ⟨size, -⟩ | ⟨min | max, -⟩⟩)
    · rw [free x mem] at reserved
      cases reserved
    · exact absurd size (by decide)
    · exact absurd min (by decide)
    · exact absurd max (by decide)
  obtain ⟨-, above, head, rest, signature, hoisted, l, call, lines, read, lines', read', fits, -⟩ :=
    calls_fit run (show '\n' ∉ ({} : Config).tempStem.toList by decide)
      (show Single ({} : Config).tempStem by decide) hd hc function ids
      ⟨children, get, .inr (.inr ⟨assigns, by decide⟩)⟩ (name.trans name'.symm)
      (by rw [name]; decide) (by rw [name]; exact unknown) accepted inputs outputs.symm
  exact ⟨t, run, d, hd, c, hc, dLines, cLines, above, head, rest, signature, hoisted, l, call, lines, read,
    lines', read', fits⟩

omit parsed line in
/-- One destination in brackets is passed by reference, though what is called returns its output. -/
theorem calls_fit_not : ∃ t, Tree.parse "function y = f(a)\ny = a\nend\n[x] = f(3)\n" = .ok t
    ∧ ((⟨.ofConfig {}⟩ : Translator).translate t).1.statements
      = ["TYPE f(TYPE a)", "\x7b", "y = a ;", "return y ;", "\x7d", "f(3, x) ;"]
    ∧ ∃ signature call, readSignature? "TYPE f(TYPE a)" = some signature ∧ readLine? "f(3, x) ;" = some call
      ∧ signature = ⟨"TYPE", "f", ["TYPE a"]⟩ ∧ call = ⟨none, "f", ["3", "x"]⟩ ∧ ¬call.Fits signature := by
  refine ⟨_, by cbv, by decide +kernel, _, _, by decide, by decide, rfl, rfl, fun fits => ?_⟩
  exact absurd fits.arguments (by decide)

end Translator

end MatrixScript
