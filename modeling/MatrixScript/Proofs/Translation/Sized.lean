/-
# `Proofs.Translation.Sized` — several destinations of a size

`[r, c] = size(e)` becomes one line for each destination, which reads one extent of the argument.
A variable is read as it is, anything else in a temporary that one line in front defines
(`Translator.sizes_assigned`).  The lines are executed one after the other: they do what is asked
for at once exactly if what they read is no destination of a line but the last one
(`run_extentLines`).
-/
import Mathlib.Logic.Function.Basic
import MatrixScript.Proofs.Translation.Destination

namespace MatrixScript

open Resolving Workspace

/-! ## What is pending -/

/-- All that is pending, for the statement that is translated and for those around it, are definitions
of temporaries, and for each statement they are different. -/
def State.Noted (aside : List (List String)) (s : State) : Prop :=
  s.Numbered ∧ ∀ lines ∈ s.pending :: aside, lines.Nodup ∧ ∀ l ∈ lines, ∃ e ∈ s.temporaries, l = e.definition

namespace State

variable {aside : List (List String)} {s s' : State}

theorem Noted.congr (h : s.Noted aside) (config : s'.config = s.config)
    (temporaries : s'.temporaries = s.temporaries) (pending : s'.pending = s.pending)
    (counters : s'.counters = s.counters) : s'.Noted aside := by
  refine ⟨h.1.congr config temporaries counters, ?_⟩
  rw [temporaries, pending]
  exact h.2

/-- A definition that is added is that of a temporary, and was not there. -/
theorem Noted.hoist (h : s.Noted aside) (node : NodeId) (text : String) (d : Datatype) :
    (s.hoist node text d).Noted aside := by
  obtain ⟨numbered, noted⟩ := h
  obtain ⟨⟨nodup, here⟩, others⟩ := List.forall_mem_cons.mp noted
  refine ⟨numbered.hoist node text d, ?_⟩
  unfold State.hoist
  split
  case h_1 e found =>
    split
    case isTrue => exact noted
    case isFalse new =>
      refine List.forall_mem_cons.mpr ⟨⟨?_, ?_⟩, others⟩
      · exact List.nodup_append.mpr ⟨nodup, List.nodup_singleton _, fun l old l' last eq => new <| by
          rwa [← List.mem_singleton.mp last, ← eq]⟩
      · exact List.forall_mem_append.mpr ⟨here, List.forall_mem_singleton.mpr
          ⟨e, (mem_of_temporary? found).1, rfl⟩⟩
  case h_2 =>
    have more : ∀ l, (∃ e ∈ s.temporaries, l = e.definition) →
        ∃ e ∈ s.temporaries ++ [⟨node, s.nextName d, definition (s.nextName d) text d⟩], l = e.definition :=
      fun l ⟨e, mem, eq⟩ => ⟨e, List.mem_append_left _ mem, eq⟩
    refine List.forall_mem_cons.mpr ⟨⟨?_, ?_⟩, fun lines mem => ⟨(others lines mem).1, fun l there =>
      more l ((others lines mem).2 l there)⟩⟩
    · refine List.nodup_append.mpr ⟨nodup, List.nodup_singleton _, fun l old l' last eq => ?_⟩
      obtain ⟨e, mem, rfl⟩ := here l old
      obtain rfl := List.mem_singleton.mp last
      exact numbered.definition_ne mem text d eq
    · exact List.forall_mem_append.mpr ⟨fun l old => more l (here l old), List.forall_mem_singleton.mpr
        ⟨_, List.mem_append_right _ (List.mem_singleton_self _), rfl⟩⟩

theorem lasting_noted : Lasting fun aside s => s.Noted aside where
  perform {_ w} id e noted := by
    cases hoisted : e.hoisted? with
    | none =>
      have idle := Workspace.Idle.perform id w hoisted
      exact noted.congr (extends_perform id w e).config idle.temporaries idle.pending idle.counters
    | some =>
      cases e with
      | hoist node text d => exact noted.hoist node text d
      | _ => cases hoisted
  pushScope noted := noted.congr rfl rfl rfl rfl
  popScope {_ s} noted := by
    have idle := Workspace.Idle.popScope ⟨default, s⟩
    exact noted.congr s.grows_popScope.config idle.temporaries idle.pending idle.counters
  opened noted := ⟨noted.1.congr rfl rfl rfl, List.forall_mem_cons.mpr
    ⟨⟨List.nodup_nil, nofun⟩, noted.2⟩⟩
  closed noted := ⟨noted.1.congr rfl rfl rfl, (List.forall_mem_cons.mp noted.2).2⟩

theorem noted_ofConfig (config : Config) : (ofConfig config).Noted [] :=
  ⟨numbered_ofConfig config, List.forall_mem_singleton.mpr ⟨List.nodup_nil, nofun⟩⟩

/-- What is hoisted is in its temporary, whose definition is pending. -/
theorem temporary?_hoist (s : State) (node : NodeId) (text : String) (d : Datatype) : ∃ e,
    (s.hoist node text d).temporary? node = some e ∧ e.name = s.temporaryName node d
      ∧ e.definition ∈ (s.hoist node text d).pending
      ∧ (s.temporary? node = none → e.definition = definition e.name text d) := by
  unfold State.hoist temporaryName
  cases found : s.temporary? node with
  | some e =>
    refine ⟨e, ?_, rfl, ?_, nofun⟩
    · dsimp only
      split
      · exact found
      · exact found
    · dsimp only
      split
      case isTrue there => exact there
      case isFalse => exact List.mem_append_right _ (List.mem_singleton_self _)
  | none =>
    have made := (temporary?_hoist_of_new found text d node).trans (if_pos rfl)
    rw [hoist_of_new found] at made
    exact ⟨_, made, rfl, List.mem_append_right _ (List.mem_singleton_self _), fun _ => rfl⟩

end State

namespace Visit

/-- What a statement that has a text leaves in temporaries. -/
theorem temporary?_left {v : Visit} {text : String} {after : Workspace}
    (run : resolveWithin v.depth v.statement { v.found with state := v.found.state.withPending [] }
      = (.ok text, after)) (node : NodeId) : v.left.state.temporary? node = after.state.temporary? node := by
  unfold left statementLines
  dsimp only
  rw [run]
  rfl

variable {I : List (List String) → State → Prop} (lasting : State.Lasting I)
include lasting

theorem lasting_ofBlock (depth : Nat) {aside : List (List String)} : ∀ {ids : List NodeId} {w : Workspace},
    I aside w.state → ∀ v ∈ ofBlock depth ids w, I aside v.found.state
  | [], _, _ => nofun
  | id :: ids, w, holds => by
    have next := maintains_statementLines lasting (maintains_resolveWithin lasting depth) aside id holds
    exact List.forall_mem_cons.mpr ⟨holds, lasting_ofBlock depth next⟩

/-- What every step keeps holds whenever the turn of a statement comes. -/
theorem exists_aside {w : Workspace} (start : I [] w.state) : ∀ v ∈ all w, ∃ aside, I aside v.found.state := by
  intro v mem
  obtain ⟨outer, top, mem⟩ := List.mem_flatMap.mp mem
  have holds : I [] outer.found.state := by
    unfold ofRoot at top
    split at top
    · cases top
    · exact lasting_ofBlock lasting _ start outer top
  rcases List.mem_cons.mp mem with rfl | inside
  · exact ⟨[], holds⟩
  -- in a function, what is pending around it is set aside
  refine ⟨[outer.found.state.pending], ?_⟩
  unfold inner at inside
  split at inside
  case h_2 => cases inside
  case h_1 depth _ =>
  split at inside
  case h_2 => cases inside
  case h_1 first ids body =>
  refine lasting_ofBlock lasting depth ?_ v inside
  unfold body? at body
  split at body
  case h_2 => cases body
  case h_1 p r b _ _ =>
    have heads := maintains_texts (maintains_resolveWithin lasting (depth + 1)) [p, r]
      [outer.found.state.pending]
      { outer.found with state := (outer.found.state.withPending []).pushScope }
      (lasting.pushScope (lasting.opened holds))
    split at body
    case h_2 => cases body
    case h_1 run =>
      rw [run] at heads
      cases body
      exact heads

end Visit

/-! ## Lines that give extents -/

/-- A line that gives a variable an extent of what is read. -/
structure ExtentLine where
  target : String
  owner : String
  extent : String
deriving DecidableEq

namespace ExtentLine

/-- How the line is emitted. -/
def written (l : ExtentLine) : String := l.target ++ " = " ++ l.owner ++ "." ++ l.extent ++ " ;"

variable {V : Type} (get : V → String → V)

/-- Executes the line: only its target gets another value. -/
def run (values : String → V) (l : ExtentLine) : String → V :=
  Function.update values l.target (get (values l.owner) l.extent)

/-- Executes lines that all read what is there in front of them. -/
def runAtOnce (before : String → V) (lines : List ExtentLine) : String → V :=
  lines.foldl (fun values l => Function.update values l.target (get (before l.owner) l.extent)) before

section

variable {lines : List ExtentLine} {owner : String}

/-- What is read stays as it is up to the last line. -/
theorem run_eq_runAtOnce {before values : String → V} (same : values owner = before owner)
    (owned : ∀ l ∈ lines, l.owner = owner) (kept : owner ∉ (lines.map (·.target)).dropLast) :
    lines.foldl (run get) values
      = lines.foldl (fun values l => Function.update values l.target (get (before l.owner) l.extent)) values := by
  induction lines generalizing values with
  | nil => rfl
  | cons l lines ih =>
    obtain ⟨here, there⟩ := List.forall_mem_cons.mp owned
    have first : run get values l = Function.update values l.target (get (before l.owner) l.extent) := by
      rw [run, here, same]
    rw [List.foldl_cons, List.foldl_cons, first]
    cases lines with
    | nil => rfl
    | cons next lines =>
      rw [List.map_cons, List.map_cons, List.dropLast_cons_cons, List.mem_cons, not_or] at kept
      refine ih ?_ there (by rw [List.map_cons]; exact kept.2)
      rw [Function.update_of_ne kept.1, same]

/-- Counts how often an extent is taken. -/
theorem pos_of_assigned {x : String} {values : String → Nat}
    (assigned : 0 < values x ∨ x ∈ lines.map (·.target)) :
    0 < lines.foldl (run fun n _ => n + 1) values x := by
  induction lines generalizing values with
  | nil => exact assigned.resolve_right List.not_mem_nil
  | cons l lines ih =>
    refine ih ?_
    rw [List.map_cons, List.mem_cons] at assigned
    by_cases here : x = l.target
    · rw [run, here, Function.update_self]
      exact .inl (Nat.succ_pos _)
    · rw [run, Function.update_of_ne here]
      exact assigned.imp_right fun there => there.resolve_left here

/-- If an earlier line assigns what the last line reads, extents of extents are taken. -/
theorem run_ne_runAtOnce (owned : ∀ l ∈ lines, l.owner = owner)
    (assigned : owner ∈ (lines.map (·.target)).dropLast) :
    lines.foldl (run fun n _ => n + 1) (fun _ => 0) ≠ runAtOnce (fun n _ => n + 1) (fun _ => 0) lines := by
  rcases List.eq_nil_or_concat' lines with rfl | ⟨front, last, rfl⟩
  · cases assigned
  rw [List.map_append, List.map_singleton, List.dropLast_concat] at assigned
  have read : last.owner = owner := owned last (List.mem_append_right _ (List.mem_singleton_self _))
  have pos : 0 < front.foldl (run fun n _ => n + 1) (fun _ => 0) owner := pos_of_assigned (.inr assigned)
  intro same
  have value := congrFun same last.target
  rw [runAtOnce, List.foldl_append, List.foldl_append, List.foldl_cons, List.foldl_cons, List.foldl_nil,
    List.foldl_nil, run, Function.update_self, Function.update_self, read] at value
  omega

end

end ExtentLine

/-- Lines that give one extent to each of some variables. -/
def extentLines (targets : List String) (owner : String) : List ExtentLine :=
  (targets.zip BuiltinRule.extents).map fun (x, extent) => ⟨x, owner, extent⟩

section

variable {targets : List String} {owner : String}

theorem targets_extentLines (few : targets.length ≤ 3) :
    (extentLines targets owner).map (·.target) = targets := by
  rw [extentLines, List.map_map]
  exact List.map_fst_zip few

theorem owner_extentLines : ∀ l ∈ extentLines targets owner, l.owner = owner :=
  List.forall_mem_map.mpr fun _ _ => rfl

theorem isLine_extentLines {I : Cpp.Idiom} (stem : '\n' ∉ I.stem.toList)
    (words : ∀ x ∈ targets, ∀ c ∈ x.toList, Token.isWordRest c) (phrase : Cpp.Phrase I false owner) :
    ∀ l ∈ (extentLines targets owner).map (·.written), Text.IsLine l := by
  have extents : ∀ x ∈ BuiltinRule.extents, ∀ c ∈ x.toList, Token.isWordRest c := by
    have all : ∀ x ∈ BuiltinRule.extents, x.toList.all Token.isWordRest := by
      simp only [BuiltinRule.extents, List.forall_mem_cons]
      exact ⟨rfl, rfl, rfl, List.forall_mem_nil _⟩
    exact fun x mem => List.all_eq_true.mp (all x mem)
  refine List.forall_mem_map.mpr (List.forall_mem_map.mpr fun pair mem => ?_)
  obtain ⟨x, extent⟩ := pair
  obtain ⟨first, second⟩ := List.of_mem_zip mem
  have target : Cpp.Phrase I false x := Cpp.phrase_name (words x first)
  have read := (Cpp.Piece.put target " = " (r := ⟨[], .apart⟩) rfl).say phrase
  have member := ((read.put "." (r := ⟨[], .apart⟩) rfl).append (.name (extents extent second))).put " ;"
    (r := ⟨[], .apart⟩) rfl
  exact member.isLine stem (Rule.append_ne_empty (by decide))

/-- Executed one after the other, the lines do what they would do at once, whatever values and
extents are, exactly if what they read is assigned by the last of them at most. -/
theorem run_extentLines (few : targets.length ≤ 3) : (∀ (V : Type) (get : V → String → V) (values : String → V),
    (extentLines targets owner).foldl (ExtentLine.run get) values
      = ExtentLine.runAtOnce get values (extentLines targets owner)) ↔ owner ∉ targets.dropLast := by
  constructor
  · intro law assigned
    refine ExtentLine.run_ne_runAtOnce owner_extentLines ?_ (law Nat _ _)
    rwa [targets_extentLines few]
  · intro kept V get values
    refine ExtentLine.run_eq_runAtOnce get rfl owner_extentLines ?_
    rwa [targets_extentLines few]

end

/-! ## The rule -/

theorem BuiltinRule.readable_of_var {s : Site} {id : NodeId} {d : Datatype}
    (var : (s.tree.node id).category = .var) : readable s id d = ((s.tree.node id).text, []) :=
  if_pos (beq_iff_eq.mpr var)

theorem BuiltinRule.readable_of_ne {s : Site} {id : NodeId} {d : Datatype}
    (other : (s.tree.node id).category ≠ .var) :
    readable s id d = (s.state.temporaryName id d, [.hoist id (s.tree.node id).text d]) :=
  if_neg fun var => other (eq_of_beq var)

/-- A size is taken apart into two or three lines, which read what can be read several times. -/
theorem BuiltinRule.assignsSize_eq {s : Site} {o : Outcome} {ds : List Operand} {value : Operand}
    (eq : s.operands = ds ++ [value]) {argument : NodeId} {rest : List NodeId}
    (arguments : value.node.children = argument :: rest) (ok : assignsSize s = .ok o) :
    (ds.length = 2 ∨ ds.length = 3)
      ∧ o.effects = (readable s argument (s.tree.node argument).datatype).2
        ++ ds.map (fun d => .destination d.id (.scalar .uword))
      ∧ s.written o = Text.joined "\n" ((extentLines (ds.map (·.text))
        (readable s argument (s.tree.node argument).datatype).1).map (·.written)) := by
  unfold assignsSize at ok
  rw [eq, Rule.splitLast?_append] at ok
  dsimp only at ok
  rw [arguments] at ok
  dsimp only at ok
  split at ok
  case isTrue => cases ok
  case isFalse several =>
  have count : ds.length = 2 ∨ ds.length = 3 := by omega
  have ok := Rule.ok_of_checked ok
  refine ⟨count, ?_⟩
  rcases count with two | three
  · obtain ⟨a, b, rfl⟩ := List.length_eq_two.mp two
    cases ok
    exact ⟨rfl, rfl⟩
  · obtain ⟨a, b, c, rfl⟩ := List.length_eq_three.mp three
    cases ok
    exact ⟨rfl, rfl⟩

/-- The size itself is kept as it is. -/
theorem BuiltinRule.size_of_destructured {s : Site} {o : Outcome} {x : Operand} (one : s.operands = [x])
    (parent : s.parentCategory? = some .assigns) (ok : size s = .ok o) : o.effects = [] := by
  have opened : isOpaque x s = true := by
    rw [isOpaque, parent, beq_self_eq_true, Bool.or_true]
  unfold size at ok
  rw [one] at ok
  dsimp only at ok
  rw [if_pos opened] at ok
  cases ok
  rfl

namespace Rule

variable {s : Site} {o : Outcome}

theorem quiet_of_nil (none : o.effects = []) : Quiet o := fun node text d mem => by
  rw [none] at mem
  cases mem

theorem quiet_of_toc (ok : BuiltinRule.toc s = .ok o) : Quiet o := by
  have clock : ∀ node text d, Effect.hoist node text d ∉ (if s.state.clock.started then [.toc]
      else [.toc, .report s.id .likelyMisuse "toc without a preceding tic"]) := by
    intro node text d
    split <;> simp
  unfold BuiltinRule.toc at ok
  dsimp only at ok
  split at ok
  · cases ok
    exact clock
  · cases ok
    exact clock

theorem quiet_of_housekeeping (ok : BuiltinRule.housekeeping s = .ok o) : Quiet o := by
  unfold BuiltinRule.housekeeping at ok
  split at ok
  · cases ok
    exact quiet_of_nil rfl
  · cases ok
    exact quiet_of_nil rfl

/-- A built-in that stands without arguments asks for no temporary. -/
theorem quiet_of_bareName {b : Builtin} {rule : Rule} (own : ofBareName? b = some rule) (ok : rule s = .ok o) :
    Quiet o := by
  cases b with
  | toc =>
    cases own
    exact quiet_of_toc ok
  | clear | close | plot | hold =>
    cases own
    exact quiet_of_housekeeping ok
  | tic =>
    cases own
    cases ok
    exact fun node text d => by simp
  | i | pi | inf | nan | truth | falsity | eye | rand =>
    cases own
    cases ok
    exact quiet_of_nil rfl
  | _ => cases own

theorem quiet_of_var (straight : s.node.redirect = none) (var : s.node.category = .var)
    (ok : select s.tree s.node s = .ok o) : Quiet o := by
  rw [select, builtinOf?, straight, var] at ok
  dsimp only at ok
  cases chosen : (Builtin.ofName? s.node.name).bind (ofBuiltin? .var) with
  | none =>
    rw [chosen] at ok
    exact quiet_of_nil (var_calm (show Rule.var s = .ok o from ok)).1
  | some rule =>
    rw [chosen] at ok
    obtain ⟨b, -, own⟩ := Option.bind_eq_some_iff.mp chosen
    exact quiet_of_bareName own ok

end Rule

/-- Effects other than hoisting leave what is pending and what is written. -/
theorem Workspace.idle_performAll (id : NodeId) {es : List Effect} (w : Workspace)
    (quiet : ∀ node text d, Effect.hoist node text d ∉ es) : w.Idle (es.foldl (perform id) w) := by
  induction es generalizing w with
  | nil => exact ⟨rfl, rfl, rfl, fun _ => rfl⟩
  | cons e es ih =>
    have first : w.Idle (w.perform id e) := .perform id w <| by
      cases e with
      | hoist node text d => exact absurd (.head es) (quiet node text d)
      | _ => rfl
    exact first.trans (ih _ fun node text d mem => quiet node text d (.tail e mem))

namespace Resolving

variable {t : Tree}

namespace Applied

variable {id : NodeId} {w w' : Workspace} {text : String} {s : Site} {o : Outcome}
  (h : Applied t id w text w' s o)
include h

/-- The rule of a built-in whose values several destinations take. -/
theorem destructured (assigns : t.category id = .assigns) {destinations : List NodeId} {call : NodeId}
    (ids : t.children id = destinations ++ [call]) (get : t.category call = .get) {b : Builtin}
    (named : Builtin.ofName? (t.node call).name = some b) {rule : Rule}
    (own : Rule.ofDestructured? b = some rule) : rule s = .ok o := by
  have category : s.node.category = .assigns := h.category.trans assigns
  have children : s.node.children = destinations ++ [call] := by
    rw [← ids, ← Tree.children_of_bare h.bare, ← h.here]
    rfl
  have value : (s.tree.node call).category = .get := (congrFun (Tree.category_of_bare h.bare) call).trans get
  have name : (s.tree.node call).name = (t.node call).name := Tree.name_of_bare h.bare call
  have answer := h.answer
  rw [Rule.select, Rule.builtinOf?, h.straight (by rw [assigns]; decide), category] at answer
  dsimp only at answer
  rw [children, List.getLast?_concat] at answer
  dsimp only at answer
  rw [value, name, named] at answer
  rw [beq_self_eq_true, if_pos rfl, Option.bind_some, Rule.ofBuiltin?, own] at answer
  exact answer

/-- A variable reads as its name. -/
theorem name_of_var (var : t.category id = .var) (free : Builtin.isReserved (t.node id).name = false) :
    text = (t.node id).name := by
  have category := h.category.trans var
  have plain : Rule.builtinOf? s.tree s.node = none := Rule.builtinOf?_eq_none
    (h.straight (by rw [var]; nofun)) (fun _ => by rw [show s.node.name = _ from h.name]; exact free)
    (by rw [category]; nofun)
  have answer := h.answer
  rw [Rule.select_eq plain (show _ = some Rule.var by rw [category]; rfl)] at answer
  rw [h.text, (Rule.var_calm answer).2, h.name]

/-- A rule that asks for no temporary leaves what is pending and what is hoisted. -/
theorem idle (quiet : Rule.Quiet o) : w'.state.pending = s.state.pending
    ∧ w'.state.temporaries = s.state.temporaries := by
  have idle := idle_performAll id ⟨s.tree, s.state⟩ quiet
  rw [h.state]
  exact ⟨idle.pending, idle.temporaries⟩

end Applied

section

variable (wf : t.WellFormed) {depth : Nat}
include wf

theorem pending_of_var {id : NodeId} (var : t.category id = .var) {w w' : Workspace} {text : String}
    (same : w.tree.bare = t.bare) (lawful : w.tree.Lawful)
    (run : resolveWithin depth id w = (.ok text, w')) : w'.state.pending = w.state.pending := by
  have lt : id < t.size := Tree.lt_size_of_category var nofun
  obtain ⟨s, o, h⟩ := exists_applied wf lt (by rw [var]; nofun) (by rw [var]; nofun) same lawful run
  have none : t.children id = [] := wf.children_eq_nil lt (by rw [var]; exact fun _ => rfl)
  have quiet := Rule.quiet_of_var (h.straight (by rw [var]; nofun)) (h.category.trans var) h.answer
  rw [(h.idle quiet).1, h.leaf none]

theorem pending_of_vars : ∀ {ids : List NodeId} {w w' : Workspace} {found : List String},
    (∀ d ∈ ids, t.category d = .var) → w.tree.bare = t.bare → w.tree.Lawful →
    texts (resolveWithin depth) ids w = (.ok found, w') → w'.state.pending = w.state.pending
  | [], _, _, _, _, _, _, run => by
    cases run
    rfl
  | d :: ids, w, w', found, vars, same, lawful, run => by
    obtain ⟨var, vars'⟩ := List.forall_mem_cons.mp vars
    have leads := (steady_resolveWithin wf depth (Tree.lt_size_of_category var nofun)).leads w same lawful
    cases result : resolveWithin depth d w with
    | mk answer w₁ =>
    rw [result] at leads
    cases answer with
    | error =>
      rw [texts_of_error result] at run
      cases run
    | ok text =>
    rw [texts_of_ok result] at run
    cases results : texts (resolveWithin depth) ids w₁ with
    | mk answers w₂ =>
    rw [results] at run
    cases answers with
    | error => cases run
    | ok more =>
    cases run
    rw [pending_of_vars vars' (leads.bare.trans same) (leads.lawful lawful) results,
      pending_of_var wf var same lawful result]

variable {id : NodeId} {w w' : Workspace} {text : String} {s : Site} {o : Outcome}

/-- The argument of a size that is taken apart is resolved behind the destinations, and nothing is
remembered after it. -/
theorem Applied.argument (h : Applied t id w text w' s o) (same : w.tree.bare = t.bare)
    (lawful : w.tree.Lawful) (assigns : t.category id = .assigns) {destinations : List NodeId}
    {call e : NodeId} (ids : t.children id = destinations ++ [call]) (get : t.category call = .get)
    (named : (t.node call).name = "size") (argument : t.children call = [e]) :
    ∃ depth depth' found w₁ w₂, texts (resolveWithin depth) destinations w = (.ok found, w₁)
      ∧ w₁.tree.bare = t.bare ∧ w₁.tree.Lawful
      ∧ resolveWithin depth' e w₁ = (.ok (s.tree.node e).text, w₂) ∧ s.state = w₂.state := by
  obtain ⟨depth, after, run, tree, state⟩ := h.begun
  rw [ids] at run
  obtain ⟨found, x, w₁, -, first, second⟩ := texts_concat run
  have child : call ∈ t.children id := by rw [ids]; exact List.mem_append_right _ (List.mem_singleton_self _)
  have below : e ∈ t.children call := by rw [argument]; exact List.mem_singleton_self e
  have front : ∀ d ∈ destinations, d ∈ t.children id := fun d mem => by
    rw [ids]
    exact List.mem_append_left _ mem
  have leads := (steady_texts (fun d mem => steady_resolveWithin wf depth (wf.bound id d (front d mem)))
    same lawful).1
  rw [first] at leads
  have same₁ := leads.bare.trans same
  have lawful₁ := leads.lawful lawful
  obtain ⟨s', o', applied⟩ := exists_applied wf (wf.bound id call child) (by rw [get]; nofun)
    (by rw [get]; nofun) same₁ lawful₁ second
  obtain ⟨depth', w₂, inner, tree', state'⟩ := applied.begun
  rw [argument] at inner
  rw [← List.nil_append [e]] at inner
  obtain ⟨none, y, w₁', -, nothing, read⟩ := texts_concat inner
  cases nothing
  have quiet : o'.effects = [] := by
    have ok := applied.builtin get (by rw [named]; rfl) (b := .size) rfl
    have parent : s'.parentCategory? = some .assigns := by
      rw [Site.parentCategory?, Site.parent?, applied.here, Tree.parent?_of_bare applied.bare,
        wf.parent?_of_mem child, Option.map_some, Option.map_some]
      exact congrArg some ((congrFun (Tree.category_of_bare applied.bare) id).trans assigns)
    exact BuiltinRule.size_of_destructured (applied.operands.trans (by rw [argument]; rfl)) parent ok
  have seeded : ∀ (w : Workspace) (i : NodeId), i ≠ e → ((w.seed i).tree.node e).text = (w.tree.node e).text :=
    fun w i other => congrArg Node.text (Tree.node_modify_of_ne other.symm _)
  refine ⟨depth, depth', found, w₁, w₂, first, same₁, lawful₁, ?_, ?_⟩
  · have own : id ≠ e := fun eq => wf.not_below_child child (eq ▸ wf.below_of_mem below)
    have other : e ≠ call := fun eq => wf.not_below_child below (eq ▸ t.below_self e)
    have inline := wf.isInline_child (by rw [get]; nofun) (by rw [get]; nofun) below
    have kept := applied.kept (Rule.quiet_of_nil quiet) other
    have written := retains_resolveWithin wf (wf.bound call e below) (Category.ne_of_isInline inline).1
      (Category.ne_of_isInline inline).2 w₁ w₂ same₁ lawful₁ y read
    rw [tree, seeded _ _ own, kept, tree', seeded _ _ other.symm, written]
    exact read
  · rw [state, applied.state, quiet, ← state']
    rfl

/-- A variable reads as its name after its turn. -/
theorem Turn.name_of_var {lookup : String → Option Datatype} {u : Tree} {c : NodeId} (turn : Turn t lookup u c)
    (var : t.category c = .var) (free : Builtin.isReserved (t.node c).name = false) :
    (u.node c).text = (t.node c).name := by
  obtain ⟨run, same, lawful, -, reads⟩ := turn
  have lt : c < t.size := Tree.lt_size_of_category var nofun
  obtain ⟨s, o, h⟩ := exists_applied wf lt (by rw [var]; nofun) (by rw [var]; nofun) same lawful run
  rw [reads c (t.below_self c), retains_resolveWithin wf lt (by rw [var]; nofun) (by rw [var]; nofun) _ _ same
    lawful _ run, h.name_of_var var free]

/-- The argument, in its turn, reads as this text, and what is in this temporary is just that, unless
it was a temporary by itself. -/
inductive Extracted (t : Tree) (lookup : String → Option Datatype) (e : NodeId) (m : Temporary) : Prop
  | intro {depth : Nat} {w w' : Workspace} {text : String} (run : resolveWithin depth e w = (.ok text, w'))
      (bare : w.tree.bare = t.bare) (known : w.state.lookup = lookup)
      (defined : w'.state.temporary? e = none → ∃ d, m.definition = State.definition m.name text d) :
      Extracted t lookup e m

/-- A size that is taken apart becomes lines that read what its argument reads as in the end: a
variable, or the temporary that it goes into. -/
theorem sized_of_run (same : w.tree.bare = t.bare) (lawful : w.tree.Lawful)
    (assigns : t.category id = .assigns) {destinations : List NodeId} {call e : NodeId}
    (ids : t.children id = destinations ++ [call]) (get : t.category call = .get)
    (named : (t.node call).name = "size") (argument : t.children call = [e])
    (vars : ∀ d ∈ destinations, t.category d = .var)
    (free : ∀ d ∈ destinations, Builtin.isReserved (t.node d).name = false)
    (run : resolveWithin depth id w = (.ok text, w')) :
    (destinations.length = 2 ∨ destinations.length = 3)
      ∧ text = Text.joined "\n" ((extentLines (destinations.map fun d => (t.node d).name)
        (w'.tree.node e).text).map (·.written))
      ∧ (t.category e = .var → w'.state.pending = w.state.pending
        ∧ (Builtin.isReserved (t.node e).name = false → (w'.tree.node e).text = (t.node e).name))
      ∧ (t.category e ≠ .var → ∃ m, w'.state.temporary? e = some m ∧ m.name = (w'.tree.node e).text
        ∧ m.definition ∈ w'.state.pending ∧ Extracted t w.state.lookup e m) := by
  have child : call ∈ t.children id := by rw [ids]; exact List.mem_append_right _ (List.mem_singleton_self _)
  have below : e ∈ t.children call := by rw [argument]; exact List.mem_singleton_self e
  have lt : id < t.size := Tree.lt_size_of_category assigns nofun
  obtain ⟨s, o, h⟩ := exists_applied wf lt (by rw [assigns]; nofun) (by rw [assigns]; nofun) same lawful run
  obtain ⟨deep, deep', found, w₁, w₂, first, same₁, lawful₁, read, state⟩ :=
    h.argument wf same lawful assigns ids get named argument
  have operands : s.operands = destinations.map s.operand ++ [s.operand call] := by
    rw [h.operands, ids, List.map_append, List.map_singleton]
  have arguments : (s.operand call).node.children = [e] :=
    (congrFun (Tree.children_of_bare h.bare) call).trans argument
  obtain ⟨count, effects, written⟩ := BuiltinRule.assignsSize_eq operands arguments
    (h.destructured assigns ids get (b := .size) (by rw [named]; rfl) rfl)
  have targets : (destinations.map s.operand).map (·.text) = destinations.map fun d => (t.node d).name := by
    rw [List.map_map]
    refine List.map_congr_left fun d mem => ?_
    exact (h.turns d (by rw [ids]; exact List.mem_append_left _ mem)).name_of_var wf (vars d mem) (free d mem)
  have other : e ≠ id := fun eq => wf.not_below_child child (eq ▸ wf.below_of_mem below)
  have typed : ∀ node x d, Effect.hoist node x d
      ∉ (destinations.map s.operand).map fun d => Effect.destination d.id (.scalar .uword) := by
    intro node x d mem
    obtain ⟨_, -, eq⟩ := List.mem_map.mp mem
    cases eq
  have category : (s.tree.node e).category = t.category e := congrFun (Tree.category_of_bare h.bare) e
  rw [List.length_map] at count
  rw [targets] at written
  by_cases var : t.category e = .var
  case pos =>
    rw [BuiltinRule.readable_of_var (category.trans var)] at effects written
    have quiet : Rule.Quiet o := fun node x d mem => by
      rw [effects] at mem
      exact typed node x d mem
    have kept := h.kept quiet other
    refine ⟨count, ?_, fun _ => ⟨?_, fun free => ?_⟩, fun plain => absurd var plain⟩
    · rw [h.text, written, kept]
    · rw [(h.idle quiet).1, state, pending_of_var wf var same₁ lawful₁ read,
        pending_of_vars wf vars same lawful first]
    · obtain ⟨_, _, applied⟩ := exists_applied wf (wf.bound call e below) (by rw [var]; nofun)
        (by rw [var]; nofun) same₁ lawful₁ read
      rw [kept, applied.name_of_var var free]
  case neg =>
    rw [BuiltinRule.readable_of_ne (by rwa [category])] at effects written
    have hoisted := h.text_hoisted other (wf.bound call e below) effects typed
    refine ⟨count, ?_, fun plain => absurd plain var, fun _ => ?_⟩
    · rw [h.text, written, hoisted]
    obtain ⟨m, found', name, pending, new⟩ := s.state.temporary?_hoist e (s.tree.node e).text
      (s.tree.node e).datatype
    have idle := idle_performAll id ((Workspace.mk s.tree s.state).perform id
      (.hoist e (s.tree.node e).text (s.tree.node e).datatype)) typed
    have after : w'.state = _ := h.state
    rw [effects, List.singleton_append, List.foldl_cons] at after
    refine ⟨m, ?_, name.trans hoisted.symm, ?_, read, same₁, ?_, fun none => ?_⟩
    · rw [State.temporary?, after, idle.temporaries]
      exact found'
    · rw [after, idle.pending]
      exact pending
    · exact funext <| lookup_of_texts wf same lawful (fun d mem => by rw [vars d mem]; rfl)
        (fun d mem => Tree.lt_size_of_category (vars d mem) nofun) first
    · exact ⟨_, new (by rwa [state])⟩

end

end Resolving

/-! ## Statements of a program -/

namespace Translator

variable {t : Tree}

/-- Two or three variables that are assigned a size are given one extent each, in lines of their own,
all of which read what the argument reads as in the end.  This is a variable as it is, without any
line in front, or a built-in without arguments as it is written; anything else is in a temporary, and
one line in front defines that.  Executed one after the other, these lines do what they would do at
once exactly if what they read is none of the variables but the last one. -/
theorem sizes_assigned {source : String} (parsed : Tree.parse source = .ok t) {config : Config}
    (stem : '\n' ∉ config.tempStem.toList) {v : Visit} (mem : v ∈ Visit.all ⟨t, .ofConfig config⟩)
    (assigns : t.category v.statement = .assigns) {destinations : List NodeId} {call e : NodeId}
    (ids : t.children v.statement = destinations ++ [call]) (get : t.category call = .get)
    (named : (t.node call).name = "size") (argument : t.children call = [e])
    (vars : ∀ d ∈ destinations, t.category d = .var) (accepted : ¬t.Refused v.statement) :
    let names := destinations.map fun d => (t.node d).name
    let owner := (v.left.tree.node e).text
    let lines := extentLines names owner
    ∃ hoisted, v.lines = hoisted ++ lines.map (·.written) ∧ lines.map (·.target) = names
      ∧ (t.category e = .var → hoisted = []
        ∧ (Builtin.isReserved (t.node e).name = false → owner = (t.node e).name))
      ∧ (t.category e ≠ .var → ∃ m, v.left.state.temporary? e = some m ∧ m.name = owner
        ∧ hoisted.count m.definition = 1 ∧ Extracted t v.found.state.lookup e m)
      ∧ ((∀ (V : Type) (get : V → String → V) (values : String → V),
          lines.foldl (ExtentLine.run get) values = ExtentLine.runAtOnce get values lines)
        ↔ owner ∉ names.dropLast) := by
  intro names owner lines
  have wf := Tree.wellFormed_of_parsed parsed
  have spelt := (Tree.raw_of_parse parsed).spelt_words
  obtain ⟨block, due⟩ := Visit.exists_due parsed stem v mem
  obtain ⟨text, after, run⟩ := due.exists_text wf accepted
  obtain ⟨emitted, tree⟩ := Visit.lines_of_run run
  have opened := due.opened
  have lt : v.statement < t.size := Tree.lt_size_of_category assigns nofun
  have free : ∀ d ∈ destinations, Builtin.isReserved (t.node d).name = false := fun d mem =>
    Bool.eq_false_iff.mpr fun reserved => accepted (.someReserved assigns ids mem reserved)
  obtain ⟨count, written, direct, moved⟩ := sized_of_run wf opened.bare opened.lawful assigns ids get named
    argument vars free run
  have few : names.length ≤ 3 := by
    rw [List.length_map]
    omega
  have last := (voiced_resolveWithin wf spelt v.depth lt _ opened).1
  rw [run] at last
  have below : e ∈ t.children call := by rw [argument]; exact List.mem_singleton_self e
  have phrase : Cpp.Phrase after.state.idiom false owner := by
    have phrase := last.phrase_argument wf get below
    rwa [← tree] at phrase
  have words : ∀ x ∈ names, ∀ c ∈ x.toList, Token.isWordRest c := List.forall_mem_map.mpr fun d mem =>
    spelt.plain d (by rw [vars d mem]; rfl)
  have isLine := isLine_extentLines last.stem words phrase
  have nodup : after.state.pending.Nodup := by
    obtain ⟨aside, noted⟩ := Visit.exists_aside State.lasting_noted (State.noted_ofConfig config) v mem
    have kept := maintains_resolveWithin State.lasting_noted v.depth v.statement _
      { v.found with state := v.found.state.withPending [] } (State.lasting_noted.opened noted)
    rw [run] at kept
    exact (kept.2 _ (List.mem_cons_self ..)).1
  rw [← tree] at direct moved
  refine ⟨after.state.pending, ?_, targets_extentLines few, direct, fun other => ?_, run_extentLines few⟩
  · rw [emitted, written, ← tree, Text.lines_joined isLine]
  · obtain ⟨m, found, name, pending, extracted⟩ := moved other
    refine ⟨m, ?_, name, List.count_eq_one_of_mem nodup pending, extracted⟩
    rw [Visit.temporary?_left run]
    exact found

/-- The sum is kept in a temporary, which both lines read. -/
theorem sizes_assigned_sum : ∃ t, Tree.parse "[r, c] = size(A + B)\n" = .ok t
    ∧ ∃ v ∈ Visit.all ⟨t, .ofConfig { declarations :=
        ⟨[("A", ⟨.matrix, .float⟩), ("B", ⟨.matrix, .float⟩)]⟩ }⟩,
      v.lines = "mat _aux_mat_1 = A+B ;" :: (extentLines ["r", "c"] "_aux_mat_1").map (·.written)
      ∧ (∃ m, v.left.state.temporary? 5 = some m ∧ m.name = "_aux_mat_1"
        ∧ Extracted t v.found.state.lookup 5 m)
      ∧ ∀ (V : Type) (get : V → String → V) (values : String → V),
        (extentLines ["r", "c"] "_aux_mat_1").foldl (ExtentLine.run get) values
          = ExtentLine.runAtOnce get values (extentLines ["r", "c"] "_aux_mat_1") := by
  have visits : ∃ t, Tree.parse "[r, c] = size(A + B)\n" = .ok t
      ∧ ∃ v ∈ Visit.all ⟨t, .ofConfig { declarations :=
          ⟨[("A", ⟨.matrix, .float⟩), ("B", ⟨.matrix, .float⟩)]⟩ }⟩,
        v.lines = ["mat _aux_mat_1 = A+B ;", "r = _aux_mat_1.n_rows ;", "c = _aux_mat_1.n_cols ;"]
        ∧ t.category v.statement = .assigns ∧ t.children v.statement = [0, 1] ++ [2] ∧ t.category 2 = .get
        ∧ (t.node 2).name = "size" ∧ t.children 2 = [5] ∧ (∀ d ∈ [0, 1], t.category d = .var)
        ∧ (∀ d ∈ [0, 1], Builtin.isReserved (t.node d).name = false)
        ∧ [0, 1].map (fun d => (t.node d).name) = ["r", "c"] ∧ t.category 5 = .add
        ∧ (v.left.tree.node 5).text = "_aux_mat_1" :=
    ⟨_, by cbv, by decide +kernel⟩
  obtain ⟨t, run, v, mem, lines, assigns, ids, get, named, argument, vars, free, names, add, owner⟩ := visits
  have accepted : ¬t.Refused v.statement := by
    rw [Tree.refused_assigns_iff assigns ids, named, argument]
    rintro (⟨d, mem, reserved⟩ | ⟨-, ⟨-, none | count⟩ | ⟨min | max, -⟩⟩)
    · rw [free d mem] at reserved
      cases reserved
    · cases none
    · exact count.1 rfl
    · exact absurd min (by decide)
    · exact absurd max (by decide)
  obtain ⟨hoisted, written, targets, -, moved, law⟩ :=
    sizes_assigned run (by decide) mem assigns ids get named argument vars accepted
  rw [owner] at moved
  rw [names, owner] at law
  obtain ⟨m, found, name, -, extracted⟩ := moved (by rw [add]; decide)
  exact ⟨t, run, v, mem, lines, ⟨m, found, name, extracted⟩, law.mpr (by decide)⟩

/-- If the variable whose size is taken gets the first extent itself, the second line takes an extent
of that; and a number that is drawn at random is drawn again for each extent. -/
theorem sizes_assigned_not :
    (∃ t, Tree.parse "[A, n] = size(A)\n" = .ok t
      ∧ ∃ v ∈ Visit.all ⟨t, .ofConfig { declarations := ⟨[("A", ⟨.matrix, .float⟩)]⟩ }⟩,
        t.category v.statement = .assigns ∧ t.children v.statement = [0, 1, 2] ∧ (∀ d ∈ [0, 1], t.category d = .var)
        ∧ (t.node 2).name = "size" ∧ t.children 2 = [3] ∧ v.lines = ["A = A.n_rows ;", "n = A.n_cols ;"]
        ∧ v.lines = (extentLines ["A", "n"] "A").map (·.written))
    ∧ (extentLines ["A", "n"] "A").foldl (ExtentLine.run fun n _ => n + 1) (fun _ => 0)
        ≠ ExtentLine.runAtOnce (fun n _ => n + 1) (fun _ => 0) (extentLines ["A", "n"] "A")
    ∧ ∃ t, Tree.parse "[r, c] = size(rand)\n" = .ok t ∧ ∃ v ∈ Visit.all ⟨t, .ofConfig {}⟩,
        t.category v.statement = .assigns ∧ t.children v.statement = [0, 1, 2] ∧ (∀ d ∈ [0, 1], t.category d = .var)
        ∧ (t.node 2).name = "size" ∧ t.children 2 = [3] ∧ (t.node 3).name = "rand"
        ∧ (v.left.tree.node 3).text = "arma::randu()"
        ∧ v.lines = ["r = arma::randu().n_rows ;", "c = arma::randu().n_cols ;"] :=
  ⟨⟨_, by cbv, by decide +kernel⟩, fun same => absurd (congrFun same "n") (by decide), ⟨_, by cbv, by decide +kernel⟩⟩

end Translator

end MatrixScript
