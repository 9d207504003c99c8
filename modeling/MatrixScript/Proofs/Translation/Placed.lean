/-
# `Proofs.Translation.Placed` — where the temporaries of a program stand

The trace of a program is tidy, and its lines are those of the translation
(`Translator.temporaries_placed`).  One statement is resolved before anything below it
is written, so its temporaries are in order (`Orderly`); what other statements make has
other names, hence their traces can be put together.  Inside of a function the same
holds for the statements of its body, with the definitions and the first line of the
function in front of them.
-/
import MatrixScript.Proofs.Translation.Function
import MatrixScript.Proofs.Translation.Orderly
import MatrixScript.Proofs.Translation.Trace

namespace MatrixScript

open Text

namespace Workspace

/-- Nothing below the node is written or hoisted yet. -/
structure Untouched (t : Tree) (id : NodeId) (w : Workspace) : Prop where
  rendered : ∀ i, t.Below id i → (w.tree.node i).rendered = none
  apart : ∀ e ∈ w.state.temporaries, ¬t.Below id e.node

namespace Untouched

variable {t : Tree} {id : NodeId} {w w' : Workspace}

theorem below (h : Untouched t id w) {i : NodeId} (below : t.Below id i) : Untouched t i w :=
  ⟨fun j under => h.rendered j (below.trans under), fun e mem under => h.apart e mem (below.trans under)⟩

/-- Rules of other nodes leave it so. -/
theorem leads (h : Untouched t id w) (wf : t.WellFormed) (same : w.tree.bare = t.bare)
    {P : NodeId → Prop} (leads : w.Leads P w') (other : ∀ j i, P j → t.Below j i → ¬t.Below id i) :
    Untouched t id w' := by
  have reach : ∀ {j i}, w.tree.Reaches j i → t.Below j i := by
    intro j i reached
    unfold Tree.Reaches at reached
    rw [Tree.children_of_bare same] at reached
    exact (t.below_self j).reaches wf reached
  refine ⟨fun i below => ?_, fun e mem below => ?_⟩
  · rcases leads.fills i with eq | ⟨j, hj, reached⟩
    · rw [eq]
      exact h.rendered i below
    · exact absurd below (other j i hj (reach reached))
  · rcases leads.temporaries e mem with old | ⟨j, hj, reached⟩
    · exact h.apart e old below
    · exact other j e.node hj (reach reached) below

end Untouched

/-- A translation under way, with this start of the names of temporaries. -/
structure Going (t : Tree) (stem : String) (w : Workspace) : Prop where
  bare : w.tree.bare = t.bare
  lawful : w.tree.Lawful
  numbered : w.state.Numbered
  stem : w.state.config.tempStem = stem

end Workspace

namespace Resolving

open Workspace

/-- The trace tells what is emitted and made from one workspace to the other. -/
structure Traced (stem : String) (r : Trace) (lines : List String) (w w' : Workspace) : Prop where
  tidy : r.Tidy stem
  lines : r.lines.map (·.text) = lines
  temporaries : w'.state.temporaries = w.state.temporaries ++ r.made.map (·.temporary)
  numbered : w'.state.Numbered

variable {t : Tree} {stem : String} {resolve : NodeId → Resolving String} {id : NodeId}
  {w : Workspace}

/-- Names that are made later are different from those made before. -/
theorem Traced.apart {r : Trace} {lines : List String} {w w' : Workspace}
    (h : Traced stem r lines w w') {e : Temporary} (mem : e ∈ w.state.temporaries) :
    e.name ∉ Trace.names r.made := by
  intro there
  have nodup := h.numbered.names
  rw [h.temporaries, List.map_append, List.nodup_append] at nodup
  refine nodup.2.2 e.name (List.mem_map_of_mem mem) e.name ?_ rfl
  rwa [List.map_map]

section

variable (wf : t.WellFormed) (identifier : isIdentifier stem)
  (spelt : ∀ names, t.Spelt (mentions stem names))
include wf identifier spelt

omit identifier in
/-- At its start, a statement has made nothing. -/
theorem orderly_start (going : Going t stem w) (untouched : Untouched t id w) :
    Orderly t id w.state [] { w with state := w.state.withPending [] } := by
  refine ⟨going.bare, going.lawful, rfl, going.numbered.congr rfl rfl rfl,
    (List.append_nil _).symm, rfl, .nil, fun i below _ => ?_⟩
  have text : (w.tree.node i).text = (t.node i).label := by
    rw [Node.text, untouched.rendered i below]
    exact Tree.field_of_bare going.bare Node.label (fun _ => rfl) i
  show (w.state.mentions []).Shows (w.tree.node i).text (w.tree.node i).text
  rw [text, State.mentions, going.stem]
  exact (spelt _).shows_label wf i

omit wf spelt in
/-- A statement with no statements in it. -/
theorem traced_statement (statement : (t.category id).isStatement) (going : Going t stem w)
    (spelt : ∀ names, t.Spelt (mentions stem names)) {made : List Temporary}
    (orderly : Orderly t id w.state made (resolve id { w with state := w.state.withPending [] }).2)
    (tells : Tells t (w.state.mentions made) (t.category id)
      (resolve id { w with state := w.state.withPending [] }).1) :
    Traced stem (traceStatement resolve id w) (statementLines resolve id w).1 w
      (statementLines resolve id w).2 := by
  unfold traceStatement statementLines fails
  generalize resolve id { w with state := w.state.withPending [] } = result at orderly tells
  obtain ⟨answer, after⟩ := result
  have chained := orderly.chained
  rw [going.stem] at chained
  have temporaries : after.state.temporaries = w.state.temporaries ++ made := orderly.temporaries
  have between : after.state.temporaries.drop w.state.temporaries.length = made := by
    rw [temporaries, List.drop_left]
  have same : ∀ failed : Bool, w.state.temporaries
      ++ (made.map (Trace.Making.mk id failed)).map (·.temporary) = after.state.temporaries := by
    intro failed
    rw [temporaries, Trace.map_temporary]
  cases answer with
  | ok text =>
    have prints : (mentions stem (made.map (·.name))).prints text text := by
      rwa [Tells, Likeness.Writes, Category.isInline, statement, State.mentions, going.stem] at tells
    have lines := List.forall₂_same.mp ((mentions stem (made.map (·.name))).lines prints)
    refine ⟨?_, ?_, ?_, orderly.numbered.congr rfl rfl rfl⟩
    · show Trace.Tidy stem ⟨(after.state.pending ++ Text.lines text).map (⟨id, ·⟩),
        (after.state.temporaries.drop w.state.temporaries.length).map (⟨id, false, ·⟩)⟩
      rw [between, show after.state.pending = _ from orderly.pending, List.map_append]
      exact (Trace.tidy_definitions identifier chained orderly.nodup_names).behind identifier lines
    · exact Trace.map_text id _
    · show after.state.temporaries = w.state.temporaries ++ (List.map _
        (after.state.temporaries.drop w.state.temporaries.length)).map _
      rw [between]
      exact (same false).symm
  | error e =>
    have silent : (mentions stem []).line (failureLine e) (failureLine e) :=
      line_of_failure (tells _ (spelt []))
    refine ⟨?_, rfl, ?_, orderly.numbered.congr rfl rfl rfl⟩
    · show Trace.Tidy stem ⟨[⟨id, failureLine e⟩],
        (after.state.temporaries.drop w.state.temporaries.length).map (⟨id, true, ·⟩)⟩
      rw [between]
      exact Trace.tidy_failure (fun e mem => chained.exists_numbered mem) silent
    · show after.state.temporaries = w.state.temporaries ++ (List.map _
        (after.state.temporaries.drop w.state.temporaries.length)).map _
      rw [between]
      exact (same true).symm

/-! ### Several statements -/

omit spelt in
/-- Statements one after the other. -/
theorem traced_lines {trace : NodeId → Workspace → Trace} {parent : NodeId} :
    ∀ {ids : List NodeId} {w : Workspace}, (∀ c ∈ ids, Steady t c (resolve c)) →
    (∀ c ∈ ids, ∀ w, Going t stem w → Untouched t c w → Traced stem (trace c w)
      (statementLines resolve c w).1 w (statementLines resolve c w).2) →
    (∀ c ∈ ids, t.parent? c = some parent) → ids.Nodup → Going t stem w →
    (∀ c ∈ ids, Untouched t c w) → Traced stem (traceLines trace resolve ids w)
      (blockLines resolve ids w).1 w (blockLines resolve ids w).2
  | [], w, _, _, _, _, going, _ =>
    ⟨Trace.tidy_empty stem, rfl, (List.append_nil _).symm, going.numbered⟩
  | c :: ids, w, steady, traced, parents, nodup, going, untouched => by
    obtain ⟨steadyHere, steadyThere⟩ := List.forall_mem_cons.mp steady
    obtain ⟨tracedHere, tracedThere⟩ := List.forall_mem_cons.mp traced
    obtain ⟨untouchedHere, untouchedThere⟩ := List.forall_mem_cons.mp untouched
    have first := tracedHere w going untouchedHere
    have leads := leads_statementLines steadyHere going.bare going.lawful
    have next : Going t stem (statementLines resolve c w).2 :=
      ⟨leads.bare.trans going.bare, leads.lawful going.lawful, first.numbered,
        by rw [leads.grows.config, going.stem]⟩
    have rest := traced_lines steadyThere tracedThere
      (fun c' mem => parents c' (List.mem_cons_of_mem c mem)) (List.nodup_cons.mp nodup).2 next
      fun c' mem => (untouchedThere c' mem).leads wf going.bare leads fun j i below under here => by
        obtain rfl := wf.apart (parents c List.mem_cons_self)
          (parents c' (List.mem_cons_of_mem c mem)) (below.trans under) here
        exact (List.nodup_cons.mp nodup).1 mem
    refine ⟨?_, ?_, ?_, rest.numbered⟩
    · have tidy : Trace.Tidy stem ⟨(trace c w).lines ++ [], (trace c w).made⟩ := by
        rw [List.append_nil]
        exact first.tidy
      have both := tidy.insert identifier rest.tidy fun e mem => rest.apart (by
        rw [first.temporaries]
        exact List.mem_append_right _ (List.mem_map_of_mem mem))
      rwa [List.append_nil] at both
    · show ((trace c w).lines ++ _).map _ = _
      rw [List.map_append, first.lines, rest.lines]
      rfl
    · show (blockLines resolve ids (statementLines resolve c w).2).2.state.temporaries = _
      rw [rest.temporaries, first.temporaries, List.append_assoc, ← List.map_append]
      rfl

/-! ### Functions -/

section

variable (lt : id < t.size) (function : t.category id = .function) {p r b : NodeId}
  (children : t.children id = [p, r, b]) (params : t.category p = .params)
  (returns : t.category r = .returns)
include lt function children params returns

omit identifier in
/-- What a function emits around the lines of its body; it does not fail then. -/
theorem exists_functionLines {depth : Nat} (body : t.category b = .block)
    (same : w.tree.bare = t.bare) {found : List String} {start : Workspace}
    (heads : texts (resolveWithin (depth + 1)) [p, r]
      { w with state := (w.state.withPending []).pushScope } = (.ok found, start))
    (same' : start.tree.bare = t.bare) (lawful : start.tree.Lawful)
    (isLine : ∀ l ∈ (blockLines (resolveWithin depth) (t.children b) start).1, IsLine l) :
    ∃ head back after, statementLines (resolveWithin (depth + 2)) id w
        = (start.state.pending ++ (head :: "\x7b"
          :: ((blockLines (resolveWithin depth) (t.children b) start).1 ++ back) ++ ["\x7d"]), after)
      ∧ after.state = (blockLines (resolveWithin depth) (t.children b) start).2.state.popScope.withPending
        w.state.pending
      ∧ fails (resolveWithin (depth + 2)) id w = false
      ∧ (mentions stem []).line head head ∧ ∀ l ∈ back, (mentions stem []).line l l := by
  obtain ⟨head, back, after, run, state, line, others⟩ := exists_functionRun wf (spelt []) lt function
    children params returns body same heads same' lawful
  have pending := pending_blockLines (resolveWithin depth) (t.children b) start
  generalize blockLines (resolveWithin depth) (t.children b) start = result at run state pending isLine ⊢
  obtain ⟨lines, inside⟩ := result
  have whole : ∀ l ∈ head :: "\x7b" :: (lines ++ back) ++ ["\x7d"], IsLine l := by
    have isLine' : ∀ {l}, (mentions stem []).line l l → IsLine l := fun h => (Wording.Line.isLine h).1
    refine List.forall_mem_append.mpr ⟨List.forall_mem_cons.mpr ⟨isLine' line,
      List.forall_mem_cons.mpr ⟨by constructor <;> decide, List.forall_mem_append.mpr
        ⟨isLine, fun l mem => isLine' (others l mem)⟩⟩⟩,
      List.forall_mem_singleton.mpr (by constructor <;> decide)⟩
  rw [lines_joined isLine] at run
  refine ⟨head, back, { after with state := after.state.withPending w.state.pending },
    ?_, ?_, ?_, line, others⟩
  · unfold statementLines
    rw [run]
    dsimp only
    rw [lines_joined whole, state, (Idle.popScope inside).pending, pending]
  · rw [state]
  · rw [fails, run]
    rfl

/-- A function, from the trace of its body. -/
theorem traced_function {depth : Nat} (body : t.category b = .block) (going : Going t stem w)
    {found : List String} {start : Workspace}
    (heads : texts (resolveWithin (depth + 1)) [p, r]
      { w with state := (w.state.withPending []).pushScope } = (.ok found, start))
    {made : List Temporary} (orderly : Orderly t id w.state made start) {inner : Trace}
    (inside : Traced stem inner (blockLines (resolveWithin depth) (t.children b) start).1 start
      (blockLines (resolveWithin depth) (t.children b) start).2) :
    Traced stem (traceFunction (resolveWithin (depth + 2)) id w start inner)
      (statementLines (resolveWithin (depth + 2)) id w).1 w
      (statementLines (resolveWithin (depth + 2)) id w).2 := by
  obtain ⟨head, back, after, whole, state, done, line, others⟩ := exists_functionLines wf spelt lt
    function children params returns body going.bare heads orderly.bare orderly.lawful fun l mem => by
      rw [← inside.lines] at mem
      obtain ⟨l, there, rfl⟩ := List.mem_map.mp mem
      exact (inside.tidy.lines l there).isLine.1
  have apart := fun {e : Temporary} => inside.apart (e := e)
  have idle := Idle.popScope (blockLines (resolveWithin depth) (t.children b) start).2
  have config : (blockLines (resolveWithin depth) (t.children b) start).2.state.popScope.config
      = (blockLines (resolveWithin depth) (t.children b) start).2.state.config :=
    (State.grows_popScope _).config
  obtain ⟨tidy, lines, temporaries, numbered⟩ := inside
  generalize blockLines (resolveWithin depth) (t.children b) start = result
    at whole state idle config lines temporaries numbered
  obtain ⟨ls, w₂⟩ := result
  dsimp only at whole state idle config lines temporaries numbered
  have chained := orderly.chained
  rw [going.stem] at chained
  have between : madeBetween w start = made := by
    rw [madeBetween, orderly.temporaries, List.drop_left]
  -- what is above and below the lines of the body
  let above := made.map (·.definition) ++ [head, "\x7b"]
  let below := back ++ ["\x7d"]
  have split : start.state.pending ++ (head :: "\x7b" :: (ls ++ back) ++ ["\x7d"])
      = above ++ ls ++ below := by
    rw [orderly.pending]
    simp [above, below]
  have takes : (above ++ ls ++ below).take above.length = above := by
    rw [List.append_assoc, List.take_left]
  have drops : (above ++ ls ++ below).drop (above.length + ls.length) = below := by
    rw [← List.length_append, List.drop_left]
  have trace : traceFunction (resolveWithin (depth + 2)) id w start inner
      = ⟨above.map (⟨id, ·⟩) ++ inner.lines ++ below.map (⟨id, ·⟩),
        made.map (⟨id, false, ·⟩) ++ inner.made⟩ := by
    have length : start.state.pending.length + 2 = above.length := by
      rw [orderly.pending]
      simp [above]
    have count : inner.lines.length = ls.length := by
      rw [← lines, List.length_map]
    rw [traceFunction, whole, done, between, length, split, count]
    dsimp only
    rw [takes, drops]
  rw [trace, whole, split]
  refine ⟨Trace.Tidy.insert identifier ?_ tidy fun e mem => ?_, ?_, ?_, ?_⟩
  · have brace : ∀ names, (mentions stem names).line "\x7b" "\x7b" :=
      fun names => (mentions stem names).line_of_like (Likeness.opening _ "\x7b" rfl) (by decide)
    have brace' : ∀ names, (mentions stem names).line "\x7d" "\x7d" :=
      fun names => (mentions stem names).line_of_like (Likeness.opening _ "\x7d" rfl) (by decide)
    have more : ∀ {l}, (mentions stem []).line l l → (mentions stem (made.map (·.name))).line l l :=
      fun h => Mentions.line_mono (fun _ mem => absurd mem List.not_mem_nil) (fun h => h) h
    have around : ∀ l ∈ [head, "\x7b"] ++ below, (mentions stem (made.map (·.name))).line l l :=
      List.forall_mem_append.mpr
        ⟨List.forall_mem_cons.mpr ⟨more line, List.forall_mem_singleton.mpr (brace _)⟩,
          List.forall_mem_append.mpr ⟨fun l mem => more (others l mem),
            List.forall_mem_singleton.mpr (brace' _)⟩⟩
    rw [← List.map_append, List.append_assoc, List.map_append]
    exact (Trace.tidy_definitions identifier chained orderly.nodup_names).behind identifier around
  · obtain ⟨e, there, rfl⟩ := List.mem_map.mp mem
    refine apart ?_
    rw [orderly.temporaries]
    exact List.mem_append_right _ there
  · rw [List.map_append, List.map_append, Trace.map_text, Trace.map_text, lines]
  · rw [state]
    show w₂.state.popScope.temporaries = _
    rw [idle.temporaries, temporaries, orderly.temporaries, List.map_append, Trace.map_temporary,
      List.append_assoc]
  · rw [state]
    exact numbered.congr config idle.temporaries idle.counters

omit identifier spelt lt function in
/-- The parameters and the outputs are not below the body. -/
theorem untouched_body (body : t.category b = .block) (going : Going t stem w)
    (untouched : Untouched t id w) (depth : Nat) : Untouched t b (texts (resolveWithin depth) [p, r]
      { w with state := (w.state.withPending []).pushScope }).2 := by
  have child : ∀ c ∈ [p, r, b], c ∈ t.children id := fun c mem => by rwa [children]
  have steady : ∀ c ∈ [p, r], Steady t c (resolveWithin depth c) := fun c mem =>
    steady_resolveWithin wf depth (wf.bound id c (child c (List.mem_append_left [b] mem)))
  have leads := (steady_texts (w := { w with state := (w.state.withPending []).pushScope }) steady
    going.bare going.lawful).1
  have inside := untouched.below (wf.below_of_mem (child b (by simp)))
  have before : Untouched t b { w with state := (w.state.withPending []).pushScope } :=
    ⟨inside.rendered, inside.apart⟩
  refine before.leads wf going.bare leads ?_
  rintro j i ⟨c, mem, below⟩ under here
  obtain rfl := wf.apart (wf.parent?_of_mem (child b (by simp)))
    (wf.parent?_of_mem (child c (List.mem_append_left [b] mem))) here (below.trans under)
  rcases List.mem_pair.mp mem with rfl | rfl
  · rw [params] at body
    cases body
  · rw [returns] at body
    cases body

omit wf identifier spelt lt params returns in
/-- A function fails if one of its parameters or outputs does. -/
theorem resolveWithin_of_error {depth : Nat} (same : w.tree.bare = t.bare) {e : Error}
    {v : Workspace} (heads : texts (resolveWithin depth) [p, r] { w with state := w.state.pushScope }
      = (.error e, v)) :
    resolveWithin (depth + 1) id w = (.error e, { v with state := v.state.popScope }) := by
  have category : (w.tree.node id).category = .function :=
    (congrFun (Tree.category_of_bare same) id).trans function
  have ids : w.tree.children id = [p, r] ++ [b] := by
    rw [Tree.children_of_bare same, children]
    rfl
  unfold resolveWithin
  rw [category]
  dsimp only
  unfold inScope node
  dsimp only
  rw [ids, texts_append, heads]

end

omit wf identifier spelt in
theorem traceWithin_of_none {depth : Nat}
    (none : ∀ d, depth = d + 1 → body? (resolveWithin d) id w = none) :
    traceWithin depth id w = traceStatement (resolveWithin depth) id w := by
  match depth with
  | 0 | 1 => rfl
  | d + 2 => rw [traceWithin, none (d + 1) rfl]

/-! ### Whole statements -/

/-- Any statement in a block, with everything below it. -/
theorem traced_within (depth : Nat) : ∀ {id parent : NodeId} {w : Workspace},
    t.parent? id = some parent → t.category parent = .block → (t.category id).isStatement →
    id < t.size → Going t stem w → Untouched t id w →
    Traced stem (traceWithin depth id w) (statementLines (resolveWithin depth) id w).1 w
      (statementLines (resolveWithin depth) id w).2 := by
  induction depth using Nat.strongRecOn with
  | ind depth ih =>
  intro id parent w up block statement lt going untouched
  have start := orderly_start wf spelt going untouched
  -- nodes below the statement keep its temporaries in order
  have ordered : ∀ depth {i}, t.Below id i → i < t.size → t.category i ≠ .block →
      t.category i ≠ .function → Ordered t id w.state i (resolveWithin depth i) := by
    intro depth i
    refine ordered_resolveWithin wf (by rwa [going.stem]) (fun made => ?_) untouched.apart ?_ depth
    · rw [State.mentions, going.stem]
      exact spelt _
    · intro g group
      rw [wf.group?_of_parent? up, block] at group
      obtain rfl := Option.some.inj group
      rw [block]
      nofun
  by_cases function : t.category id = .function
  case neg =>
    have none : ∀ d, depth = d + 1 → body? (resolveWithin d) id w = none := by
      intro d _
      have category : (w.tree.node id).category ≠ .function := fun eq =>
        function ((congrFun (Tree.category_of_bare going.bare) id).symm.trans eq)
      unfold body?
      split
      · exact absurd ‹_› category
      · rfl
    rw [traceWithin_of_none none]
    have other : t.category id ≠ .block := by
      intro eq
      rw [eq] at statement
      cases statement
    obtain ⟨made, orderly, tells⟩ := ordered depth (t.below_self id) lt other function start
    exact traced_statement identifier statement going spelt orderly tells
  case pos =>
    obtain ⟨p, r, b, children, params, returns, body⟩ := wf.children_function lt function
    cases depth with
    | zero =>
      exact traced_statement identifier statement going spelt start fun L _ => .word L _ rfl
    | succ d =>
      have kind : ∀ c ∈ [p, r], (t.category c).isInline := by
        refine List.forall_mem_cons.mpr ⟨?_, List.forall_mem_singleton.mpr ?_⟩
        · rw [params]
          rfl
        · rw [returns]
          rfl
      have heads : ∀ c ∈ [p, r], Ordered t id w.state c (resolveWithin d c) := by
        intro c mem made w₁ h
        have child : c ∈ t.children id := by
          rw [children]
          exact List.mem_append_left [b] mem
        obtain ⟨block, function⟩ := Category.ne_of_isInline (kind c mem)
        exact ordered d (wf.below_of_mem child) (wf.bound id c child) block function h
      obtain ⟨made, orderly, tells⟩ := orderly_texts heads kind start.pushScope
      have rest := untouched_body wf children params returns body going untouched d
      cases results : texts (resolveWithin d) [p, r]
        { w with state := (w.state.withPending []).pushScope } with
      | mk answers inside =>
      rw [results] at orderly tells rest
      cases answers with
      | error e =>
        have none : ∀ d', d + 1 = d' + 1 → body? (resolveWithin d') id w = none := by
          intro d' eq
          obtain rfl := Nat.succ.inj eq
          rw [body?_of_function going.bare function children, results]
        rw [traceWithin_of_none none]
        have run := resolveWithin_of_error function children
          (w := { w with state := w.state.withPending [] }) going.bare results
        refine traced_statement identifier statement going spelt (by rw [run]; exact orderly.popScope) ?_
        rw [run]
        exact tells
      | ok found =>
        cases d with
        | zero => cases results
        | succ d =>
          have trace : traceWithin (d + 2) id w = traceFunction (resolveWithin (d + 2)) id w inside
              (traceLines (traceWithin d) (resolveWithin d) (t.children b) inside) := by
            rw [traceWithin, body?_of_function going.bare function children, results]
          have inner : Traced stem (traceLines (traceWithin d) (resolveWithin d) (t.children b) inside)
              (blockLines (resolveWithin d) (t.children b) inside).1 inside
              (blockLines (resolveWithin d) (t.children b) inside).2 :=
            traced_lines wf identifier
              (fun c mem => steady_resolveWithin wf d (wf.bound b c mem))
              (fun c mem w => ih d (by omega) (wf.parent?_of_mem mem) body
                (wf.isStatement_child body mem) (wf.bound b c mem))
              (fun c mem => wf.parent?_of_mem mem) (wf.nodup_children b)
              ⟨orderly.bare, orderly.lawful, orderly.numbered, by rw [orderly.config, going.stem]⟩
              fun c mem => rest.below (wf.below_of_mem mem)
          rw [trace]
          exact traced_function wf identifier spelt lt function children params returns body going
            results orderly inner

end

end Resolving

/-! ## Whole programs -/

/-- Identifiers of a program: the names of its variables, calls and functions. -/
def Tree.identifiers (t : Tree) : List String :=
  (t.nodes.toList.filter (·.category.isNamed)).map (·.name)

theorem Tree.mem_identifiers {t : Tree} {i : NodeId} (named : (t.category i).isNamed) :
    (t.node i).name ∈ t.identifiers := by
  have lt : i < t.nodes.size := by
    by_contra out
    rw [category, node_of_size_le (Nat.le_of_not_lt out)] at named
    cases named
  have node : t.node i = t.nodes[i] := by
    rw [node_eq_getD, Array.getElem?_eq_getElem lt, Option.getD_some]
  refine List.mem_map_of_mem (List.mem_filter.mpr ⟨?_, named⟩)
  rw [node]
  exact Array.mem_def.mp (Array.getElem_mem lt)

/-- Where no identifier is the name of a temporary, the program mentions no temporaries,
whatever temporaries there are. -/
theorem Tree.Raw.spelt {t : Tree} (raw : t.Raw) {stem : String}
    (distinct : ∀ x ∈ t.identifiers, Distinct stem x) (names : List String) :
    t.Spelt (mentions stem names) where
  plain i named := ⟨(raw i).name named, distinct _ (mem_identifiers named)⟩
  quotable i s string value := (raw i).line s string value

namespace Translator

open Resolving Workspace

/-- The trace of a program tells what is emitted and made while it is translated. -/
theorem traced_rootLines {source : String} {t : Tree} (parsed : Tree.parse source = .ok t)
    {config : Config} (identifier : isIdentifier config.tempStem)
    (distinct : ∀ x ∈ t.identifiers, Distinct config.tempStem x) :
    Traced config.tempStem (traceRoot ⟨t, .ofConfig config⟩) (rootLines ⟨t, .ofConfig config⟩).1
      ⟨t, .ofConfig config⟩ (rootLines ⟨t, .ofConfig config⟩).2 := by
  have wf := Tree.wellFormed_of_parsed parsed
  have raw := Tree.raw_of_parse parsed
  obtain ⟨root, top, -, block, -⟩ := wf.root
  have going : Going t config.tempStem ⟨t, .ofConfig config⟩ :=
    ⟨rfl, raw.lawful, State.numbered_ofConfig config, rfl⟩
  have untouched : ∀ id, Untouched t id ⟨t, .ofConfig config⟩ := fun id => by
    refine ⟨fun i _ => ?_, nofun⟩
    show (t.node i).rendered = none
    rw [← (raw i).bare]
    rfl
  have trace : traceRoot ⟨t, .ofConfig config⟩ = traceLines (traceWithin (t.size + 1))
      (resolveWithin (t.size + 1)) (t.children root) ⟨t, .ofConfig config⟩ := by
    rw [traceRoot, top]
  rw [rootLines_eq wf top (w := ⟨t, .ofConfig config⟩) rfl, trace]
  exact traced_lines wf identifier (fun c mem => steady_resolveWithin wf _ (wf.bound root c mem))
    (fun c mem w going => traced_within wf identifier (raw.spelt distinct) (t.size + 1)
      (wf.parent?_of_mem mem) block (wf.isStatement_child block mem) (wf.bound root c mem) going)
    (fun c mem => wf.parent?_of_mem mem) (wf.nodup_children root) going fun c _ => untouched c

/-- The lines of a translation are those of its trace, and so are its temporaries.  These
have different names.  Each of them is defined by one line if its statement, the
innermost one, succeeds, and only lines of that statement that come later mention it; if
its statement fails, no line mentions it. -/
theorem temporaries_placed {source : String} {t : Tree} (parsed : Tree.parse source = .ok t)
    {config : Config} (identifier : isIdentifier config.tempStem)
    (apart : ∀ x ∈ t.identifiers, Apart config.tempStem x) :
    let start : Workspace := ⟨t, .ofConfig config⟩
    let trace := traceRoot start
    trace.lines.map (·.text) = ((⟨.ofConfig config⟩ : Translator).translate t).1.statements
      ∧ trace.made.map (·.temporary) = (rootLines start).2.state.temporaries
      ∧ (Trace.names trace.made).Nodup
      ∧ ∀ e ∈ trace.made, Trace.Places trace.lines e := by
  intro start trace
  have traced := traced_rootLines parsed identifier fun x mem => (apart x mem).distinct
  have temporaries : (rootLines start).2.state.temporaries = trace.made.map (·.temporary) :=
    traced.temporaries
  refine ⟨traced.lines, temporaries.symm, ?_, traced.tidy.places⟩
  have nodup := traced.numbered.names
  rwa [temporaries, List.map_map] at nodup

/-- The sizes inside and behind a function go into temporaries of their own. -/
theorem temporaries_placed_sizes : ∃ t,
    Tree.parse "function f\nn=g(size(B))\nend\nm=g(size(B))\n" = .ok t
    ∧ isIdentifier "_aux" ∧ (∀ x ∈ t.identifiers, Apart "_aux" x)
    ∧ let config : Config := { declarations := ⟨[("B", ⟨.matrix, .float⟩)]⟩ }
      let start : Workspace := ⟨t, .ofConfig config⟩
      let trace := traceRoot start
      trace.lines.map (·.text) = ((⟨.ofConfig config⟩ : Translator).translate t).1.statements
        ∧ trace.made.map (·.temporary) = (rootLines start).2.state.temporaries
        ∧ (Trace.names trace.made).Nodup
        ∧ ∀ e ∈ trace.made, Trace.Places trace.lines e := by
  have parses : ∃ t,
      Tree.parse "function f\nn=g(size(B))\nend\nm=g(size(B))\n" = .ok t
      ∧ t.identifiers = ["n", "g", "size", "B", "f", "m", "g", "size", "B"] :=
    ⟨_, by cbv, by cbv⟩
  obtain ⟨t, run, names⟩ := parses
  have apart : ∀ x ∈ t.identifiers, Apart "_aux" x := by
    rw [names]
    decide
  exact ⟨t, run, rfl, apart, temporaries_placed run rfl apart⟩

end Translator

end MatrixScript
