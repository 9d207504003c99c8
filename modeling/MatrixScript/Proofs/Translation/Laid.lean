/-
# `Proofs.Translation.Laid` — how emitted lines are laid out

A statement gives lines that are phrases, and a function its first line with the lines of
its body in braces (`Cpp.Laid`).  By induction on how deep a node is resolved: its children
are told, then its rule is (`Worded.applyRule`), and lines are laid out by those of the
statements in them.  Texts of functions and blocks are cut into lines again; none is lost
there, because no line has a newline in it.
-/
import MatrixScript.Proofs.Translation.Contained
import MatrixScript.Proofs.Translation.Mentions
import MatrixScript.Proofs.Translation.Phrased

namespace MatrixScript

namespace Cpp

/-- Lines that are phrases, and blocks of such lines in braces. -/
inductive Laid (I : Idiom) : List String → Prop
  | nil : Laid I []
  | line {l : String} {ls : List String} : Phrase I true l → l ≠ "" → Laid I ls → Laid I (l :: ls)
  | braces {body ls : List String} : Laid I body → Laid I ls →
      Laid I ("\x7b" :: (body ++ "\x7d" :: ls))

namespace Laid

variable {I : Idiom} {ls ls' : List String}

theorem of_phrases (h : ∀ l ∈ ls, Phrase I true l ∧ l ≠ "") : Laid I ls := by
  induction ls with
  | nil => exact .nil
  | cons l ls ih =>
    obtain ⟨first, rest⟩ := List.forall_mem_cons.mp h
    exact .line first.1 first.2 (ih rest)

theorem append (h : Laid I ls) (h' : Laid I ls') : Laid I (ls ++ ls') := by
  induction h with
  | nil => exact h'
  | line phrase some _ ih => exact .line phrase some ih
  | braces body _ _ ih =>
    rw [List.cons_append, List.append_assoc, List.cons_append]
    exact .braces body ih

theorem grows {s s' : State} (grows : s.Grows s') (h : Laid s.idiom ls) : Laid s'.idiom ls := by
  induction h with
  | nil => exact .nil
  | line phrase some _ ih => exact .line (phrase.grows grows) some ih
  | braces _ _ ih ih' => exact .braces ih ih'

/-- Every line is a phrase or a brace. -/
theorem cases (h : Laid I ls) : ∀ l ∈ ls, (Phrase I true l ∧ l ≠ "") ∨ l = "\x7b" ∨ l = "\x7d" := by
  induction h with
  | nil => exact nofun
  | line phrase some _ ih => exact List.forall_mem_cons.mpr ⟨.inl ⟨phrase, some⟩, ih⟩
  | braces _ _ ih ih' =>
    exact List.forall_mem_cons.mpr ⟨.inr (.inl rfl), List.forall_mem_append.mpr
      ⟨ih, List.forall_mem_cons.mpr ⟨.inr (.inr rfl), ih'⟩⟩⟩

theorem isLine (stem : '\n' ∉ I.stem.toList) (h : Laid I ls) : ∀ l ∈ ls, Text.IsLine l := by
  intro l mem
  rcases h.cases l mem with ⟨phrase, some⟩ | rfl | rfl
  · exact Piece.isLine stem phrase some
  · constructor <;> decide
  · constructor <;> decide

end Laid

end Cpp

open Cpp

/-- Names of the children of a node. -/
def Tree.namesBelow (t : Tree) (id : NodeId) : List String :=
  (t.children id).map fun c => (t.node c).name

theorem Tree.namesBelow_of_bare {t t' : Tree} (same : t'.bare = t.bare) (id : NodeId) :
    t'.namesBelow id = t.namesBelow id := by
  rw [namesBelow, children_of_bare same, namesBelow]
  exact List.map_congr_left fun c _ => name_of_bare same c

namespace Workspace

variable {t : Tree} {w w' : Workspace} {id : NodeId}

/-- Lines of a statement: of all statements only functions have braces around some. -/
structure Spread (t : Tree) (w : Workspace) (id : NodeId) (ls : List String) : Prop where
  laid : Laid w.state.idiom ls
  plain : t.category id ≠ .function → t.category id ≠ .block →
    ∀ l ∈ ls, Phrase w.state.idiom true l ∧ l ≠ ""

/-- The result of resolving any node. -/
def Emits (t : Tree) (w : Workspace) (id : NodeId) : Except Error String → Prop
  | .error e => Phrase w.state.idiom true e.message
  | .ok text => if (t.category id).isInline then Told t w id text
      else ∃ ls, text = Text.joined "\n" ls ∧ Spread t w id ls

theorem Written.emits {answer : Except Error String} (h : Written t w id answer) :
    Emits t w id answer := by
  cases answer with
  | error => exact h
  | ok text =>
    unfold Written at h
    unfold Emits
    dsimp only at h ⊢
    split at h
    · rwa [if_pos ‹_›]
    · rw [if_neg ‹_›]
      obtain ⟨ls, rfl, phrases⟩ := h
      exact ⟨ls, rfl, .of_phrases phrases, fun _ _ => phrases⟩

theorem Spread.grows {ls : List String} (h : Spread t w id ls) (grows : w.state.Grows w'.state) :
    Spread t w' id ls :=
  ⟨h.laid.grows grows, fun function block l mem =>
    ⟨(h.plain function block l mem).1.grows grows, (h.plain function block l mem).2⟩⟩

theorem Emits.keep {answer : Except Error String} (h : Emits t w id answer)
    (grows : w.state.Grows w'.state)
    (typing : ∀ c ∈ t.children id, (w'.tree.node c).typing = (w.tree.node c).typing) :
    Emits t w' id answer := by
  cases answer with
  | error => exact Phrase.grows grows h
  | ok text =>
    unfold Emits at h ⊢
    dsimp only at h ⊢
    split at h
    · rw [if_pos ‹_›]
      exact Told.keep h grows typing
    · rw [if_neg ‹_›]
      obtain ⟨ls, eq, spread⟩ := h
      exact ⟨ls, eq, spread.grows grows⟩

theorem Emits.spread {text : String} (h : Emits t w id (.ok text))
    (lines : (t.category id).isInline = false) :
    ∃ ls, text = Text.joined "\n" ls ∧ Spread t w id ls := by
  unfold Emits at h
  dsimp only at h
  rwa [if_neg (by simp [lines])] at h

end Workspace

namespace Resolving

open Workspace

variable {t : Tree} {resolve : NodeId → Resolving String} {id : NodeId}

/-- Resolving the node keeps everything that is written put together from phrases, and gives
what is. -/
def Voiced (t : Tree) (id : NodeId) (step : Resolving String) : Prop :=
  ∀ w, Worded t w → Worded t (step w).2 ∧ Emits t (step w).2 id (step w).1

/-- Resolving the node gives types below it only. -/
def Types (t : Tree) (id : NodeId) (step : Resolving String) : Prop :=
  ∀ w : Workspace, w.tree.bare = t.bare → ∀ i, ¬t.Below id i →
    ((step w).2.tree.node i).typing = (w.tree.node i).typing

theorem types_resolveWithin (wf : t.WellFormed) (depth : Nat) (id : NodeId) :
    Types t id (resolveWithin depth id) := by
  intro w same i apart
  have spares : w.tree.Spares id (resolveWithin depth id w).2.tree :=
    stable_resolveWithin (stable_spares (wf.of_bare same) id) (wf.of_bare same) depth id
      (w.tree.below_self id) w (.refl _ _)
  exact spares.typing i fun below => apart (below.of_bare same.symm)

theorem types_texts : ∀ {ids : List NodeId} {w : Workspace},
    (∀ c ∈ ids, Types t c (resolve c)) → (∀ c ∈ ids, Steady t c (resolve c)) →
    w.tree.bare = t.bare → w.tree.Lawful → ∀ i, (∀ c ∈ ids, ¬t.Below c i) →
    ((texts resolve ids w).2.tree.node i).typing = (w.tree.node i).typing
  | [], _, _, _, _, _, _, _ => rfl
  | c :: ids, w, types, steady, same, lawful, i, apart => by
    obtain ⟨typesHere, typesThere⟩ := List.forall_mem_cons.mp types
    obtain ⟨steadyHere, steadyThere⟩ := List.forall_mem_cons.mp steady
    obtain ⟨here, there⟩ := List.forall_mem_cons.mp apart
    have first := typesHere w same i here
    have leads := steadyHere.leads w same lawful
    cases result : resolve c w with
    | mk answer w₁ =>
    rw [result] at first leads
    cases answer with
    | error e =>
      rw [texts_of_error result]
      exact first
    | ok text =>
      rw [texts_of_ok result]
      exact (types_texts typesThere steadyThere (leads.bare.trans same) (leads.lawful lawful) i
        there).trans first

/-- Results of several nodes. -/
def EmitsAll (t : Tree) (w : Workspace) (ids : List NodeId) : Except Error (List String) → Prop
  | .error e => Phrase w.state.idiom true e.message
  | .ok found => List.Forall₂ (fun c text => Emits t w c (.ok text)) ids found

section

variable (wf : t.WellFormed)
include wf

/-- Children of one node, one after the other. -/
theorem voiced_texts {parent : NodeId} : ∀ {ids : List NodeId} {w : Workspace},
    (∀ c ∈ ids, Voiced t c (resolve c)) → (∀ c ∈ ids, Types t c (resolve c)) →
    (∀ c ∈ ids, Steady t c (resolve c)) → (∀ c ∈ ids, t.parent? c = some parent) → ids.Nodup →
    Worded t w → Worded t (texts resolve ids w).2
      ∧ EmitsAll t (texts resolve ids w).2 ids (texts resolve ids w).1
  | [], _, _, _, _, _, _, worded => ⟨worded, .nil⟩
  | c :: ids, w, voiced, types, steady, parents, nodup, worded => by
    obtain ⟨voicedHere, voicedThere⟩ := List.forall_mem_cons.mp voiced
    obtain ⟨-, typesThere⟩ := List.forall_mem_cons.mp types
    obtain ⟨-, steadyThere⟩ := List.forall_mem_cons.mp steady
    obtain ⟨up, upThere⟩ := List.forall_mem_cons.mp parents
    obtain ⟨other, nodup'⟩ := List.nodup_cons.mp nodup
    have first := voicedHere w worded
    cases result : resolve c w with
    | mk answer w₁ =>
    rw [result] at first
    cases answer with
    | error e =>
      rw [texts_of_error result]
      exact first
    | ok text =>
      have rest := voiced_texts voicedThere typesThere steadyThere upThere nodup' first.1
      have walk := steady_texts steadyThere first.1.bare first.1.lawful
      have kept : ∀ g ∈ t.children c, ((texts resolve ids w₁).2.tree.node g).typing
          = (w₁.tree.node g).typing := by
        intro g child
        refine types_texts typesThere steadyThere first.1.bare first.1.lawful g fun c' mem below => ?_
        obtain rfl := wf.apart up (upThere c' mem) (wf.below_of_mem child) below
        exact other mem
      rw [texts_of_ok result]
      refine ⟨rest.1, ?_⟩
      have here := first.2.keep walk.1.grows kept
      generalize texts resolve ids w₁ = results at rest here
      obtain ⟨answers, w₂⟩ := results
      cases answers with
      | error e => exact rest.2
      | ok found => exact .cons here rest.2

variable (spelt : t.Spelt .words)
include spelt

/-- A node that is neither a function nor a block. -/
theorem voiced_node (lt : id < t.size) (block : t.category id ≠ .block)
    (function : t.category id ≠ .function) (voiced : ∀ c ∈ t.children id, Voiced t c (resolve c))
    (types : ∀ c ∈ t.children id, Types t c (resolve c))
    (steady : ∀ c ∈ t.children id, Steady t c (resolve c)) : Voiced t id (node resolve id) := by
  intro w worded
  have walk := steady_texts steady worded.bare worded.lawful
  have children := voiced_texts wf voiced types steady (fun c mem => wf.parent?_of_mem mem)
    (wf.nodup_children id) worded
  unfold node
  rw [Tree.children_of_bare worded.bare]
  cases results : texts resolve (t.children id) w with
  | mk answers w₁ =>
  rw [results] at walk children
  cases answers with
  | error e => exact children
  | ok found =>
    have emitted : List.Forall₂ (fun c text => Emits t w₁ c (.ok text)) (t.children id) found :=
      children.2
    have told : List.Forall₂ (Told t w₁) (t.children id) found := by
      refine List.forall₂_iff_zip.mpr ⟨emitted.length_eq, fun {c text} mem => ?_⟩
      have emits : Emits t w₁ c (.ok text) := List.forall₂_zip emitted mem
      unfold Emits at emits
      dsimp only at emits
      rwa [if_pos (wf.isInline_child block function (List.of_mem_zip mem).1)] at emits
    obtain ⟨worded', written⟩ := children.1.applyRule wf spelt lt block function told
      (walk.2 found rfl)
    exact ⟨worded', written.emits⟩

/-! ## Functions -/

omit wf in
/-- Parameters and outputs are words. -/
theorem words_namesBelow (wf : t.WellFormed) {c : NodeId} (lt : c < t.size)
    (names : t.category c = .params ∨ t.category c = .returns) :
    ∀ x ∈ t.namesBelow c, ∀ d ∈ x.toList, Token.isWordRest d := by
  refine List.forall_mem_map.mpr fun i mem => spelt.plain i ?_
  have admits := (wf.shaped c lt).children
  have var : t.category i = .var := by
    rcases names with category | category <;> rw [category] at admits <;>
      exact eq_of_beq (List.all_eq_true.mp admits _ (List.mem_map_of_mem mem))
  rw [var]
  rfl

section

variable (lt : id < t.size) (function : t.category id = .function) {p r b : NodeId}
  (children : t.children id = [p, r, b]) {w : Workspace} (worded : Worded t w)
include lt function children worded

omit wf spelt lt in
/-- The rule of a function gives its first line and the lines of its body in braces. -/
theorem worded_signature (x y z : String) : ∃ after, applyRule id [x, y, z] w
      = (.ok (Text.joined "\n" (Rule.signature ((w.seed id).site id [x, y, z]) (t.namesBelow p)
          (t.namesBelow r) :: "\x7b" :: (Text.lines z ++ Rule.closing (t.namesBelow r)
            (Text.lines z)) ++ ["\x7d"])), after)
    ∧ Worded t after ∧ after.state = w.state := by
  have seeded := worded.seed id
  have category : ((w.seed id).tree.node id).category = .function :=
    (congrFun (Tree.category_of_bare seeded.bare) id).trans function
  have ids : (w.seed id).tree.children id = [p, r, b] :=
    (congrFun (Tree.children_of_bare seeded.bare) id).trans children
  have operands : ((w.seed id).site id [x, y, z]).operands = [⟨p, (w.seed id).tree.node p, x⟩,
      ⟨r, (w.seed id).tree.node r, y⟩, ⟨b, (w.seed id).tree.node b, z⟩] := by
    show (((w.seed id).tree.children id).zip _).map _ = _
    rw [ids]
    rfl
  have names : ∀ i text, Rule.namesOf ((w.seed id).site id [x, y, z])
      ⟨i, (w.seed id).tree.node i, text⟩ = t.namesBelow i := fun i _ =>
    Tree.namesBelow_of_bare seeded.bare i
  obtain ⟨o, ok, effects, written⟩ := Rule.function_eq operands
  rw [names, names] at written
  have select : Rule.select (w.seed id).tree ((w.seed id).tree.node id) = Rule.function :=
    Rule.select_function category
  refine ⟨(w.seed id).commit id [x, y, z] o, ?_, ?_, ?_⟩
  · unfold applyRule
    dsimp only
    rw [select, ok]
    dsimp only
    rw [textOf_eq _ (by rw [ids]; rfl), written]
  · unfold commit
    rw [effects]
    refine seeded.write (fun _ => rfl) (fun _ => rfl) (fun _ => rfl) (fun _ => rfl)
      (fun inline => ?_) fun range => ?_
    · rw [function] at inline
      cases inline
    · rw [function] at range
      cases range
  · show (o.effects.foldl (perform id) (w.seed id)).state = _
    rw [effects]
    rfl

/-- The lines of a function whose children are resolved. -/
theorem laid_function (voiced : ∀ c ∈ t.children id, Voiced t c (resolve c))
    (types : ∀ c ∈ t.children id, Types t c (resolve c))
    (steady : ∀ c ∈ t.children id, Steady t c (resolve c)) {found : List String} {w₁ : Workspace}
    (results : texts resolve (t.children id) w = (.ok found, w₁)) : ∃ (s : Site) (x y : String)
      (ls : List String) (after : Workspace), s.name = (t.node id).name
    ∧ found = [x, y, Text.joined "\n" ls] ∧ (∀ l ∈ ls, Text.IsLine l)
    ∧ applyRule id found w₁ = (.ok (Text.joined "\n" (Rule.signature s (t.namesBelow p) (t.namesBelow r)
        :: "\x7b" :: (ls ++ Rule.closing (t.namesBelow r) ls) ++ ["\x7d"])), after)
    ∧ Worded t after ∧ Laid after.state.idiom (Rule.signature s (t.namesBelow p) (t.namesBelow r)
        :: "\x7b" :: (ls ++ Rule.closing (t.namesBelow r) ls) ++ ["\x7d"]) := by
  have kids := voiced_texts wf voiced types steady (fun c mem => wf.parent?_of_mem mem)
    (wf.nodup_children id) worded
  rw [results] at kids
  obtain ⟨worded', emitted⟩ : Worded t w₁
    ∧ List.Forall₂ (fun c text => Emits t w₁ c (.ok text)) (t.children id) found := kids
  obtain ⟨p', r', b', children', params, returns, body⟩ := wf.children_function lt function
  obtain ⟨rfl, rfl, rfl⟩ : p' = p ∧ r' = r ∧ b' = b := by simpa using children'.symm.trans children
  have child : ∀ c ∈ [p', r', b'], c ∈ t.children id := fun c mem => by rwa [children]
  rw [children] at emitted
  rcases emitted with _ | @⟨_, x, _, _, -, _ | @⟨_, y, _, _, -, _ | @⟨_, z, _, _, emits, _ | _⟩⟩⟩
  obtain ⟨ls, rfl, spread⟩ := emits.spread (by rw [body]; rfl)
  have isLine := spread.laid.isLine worded'.stem
  have bodyLines : Text.lines (Text.joined "\n" ls) = ls := Text.lines_joined isLine
  obtain ⟨after, run, final, state⟩ := worded_signature function children worded' x y
    (Text.joined "\n" ls)
  have inputs := words_namesBelow spelt wf (wf.bound id p' (child p' (by simp))) (.inl params)
  have outputs := words_namesBelow spelt wf (wf.bound id r' (child r' (by simp))) (.inr returns)
  have named : ((w₁.seed id).site id [x, y, Text.joined "\n" ls]).name = (t.node id).name :=
    Tree.name_of_bare (worded'.seed id).bare id
  have name : ∀ c ∈ ((w₁.seed id).site id [x, y, Text.joined "\n" ls]).name.toList,
      Token.isWordRest c := by
    rw [named]
    exact spelt.plain id (by rw [function]; rfl)
  have idiom : after.state.idiom = w₁.state.idiom := congrArg State.idiom state
  rw [bodyLines] at run
  refine ⟨_, x, y, ls, after, named, rfl, isLine, run, final, ?_⟩
  obtain ⟨head, some⟩ := Rule.phrase_signature (I := w₁.state.idiom) name inputs outputs
  rw [idiom]
  refine .line (head.weaken true) some ?_
  have closing : Laid w₁.state.idiom (Rule.closing (t.namesBelow r') ls) :=
    .of_phrases fun l mem =>
      have phrase := Rule.phrase_closing (I := w₁.state.idiom) outputs l mem
      ⟨phrase.1.weaken true, phrase.2⟩
  exact .braces (spread.laid.append closing) .nil

/-- A whole function: it puts the lines of its body in braces. -/
theorem voiced_function (voiced : ∀ c ∈ t.children id, Voiced t c (resolve c))
    (types : ∀ c ∈ t.children id, Types t c (resolve c))
    (steady : ∀ c ∈ t.children id, Steady t c (resolve c)) :
    Worded t (node resolve id w).2 ∧ Emits t (node resolve id w).2 id (node resolve id w).1 := by
  unfold node
  rw [Tree.children_of_bare worded.bare]
  cases results : texts resolve (t.children id) w with
  | mk answers w₁ =>
  cases answers with
  | error e =>
    have kids := voiced_texts wf voiced types steady (fun c mem => wf.parent?_of_mem mem)
      (wf.nodup_children id) worded
    rw [results] at kids
    exact kids
  | ok found =>
    obtain ⟨s, x, y, ls, after, -, -, -, run, final, laid⟩ := laid_function wf spelt lt function children worded
      voiced types steady results
    dsimp only
    rw [run]
    refine ⟨final, ?_⟩
    unfold Emits
    dsimp only
    rw [if_neg (by rw [function]; decide)]
    exact ⟨_, rfl, laid, fun other => absurd function other⟩

end

/-! ## Lines of statements -/

section

variable {w : Workspace}

omit wf spelt in
/-- The line of a failure. -/
theorem phrase_failureLine {I : Idiom} {e : Error} (phrase : Phrase I true e.message) :
    Phrase I true (failureLine e) ∧ failureLine e ≠ "" := by
  refine ⟨?_, fun none => ?_⟩
  · exact Piece.append (Piece.weaken (opening I "// error: " (q := ⟨[], .apart⟩) rfl) true) phrase
  · have letters := congrArg String.toList none
    simp [failureLine] at letters

omit wf spelt in
/-- A statement: its lines come behind the definitions that it hoists. -/
theorem spread_statementLines (statement : (t.category id).isStatement)
    (voiced : Voiced t id (resolve id)) (steady : Steady t id (resolve id)) (worded : Worded t w) :
    Worded t (statementLines resolve id w).2
      ∧ Spread t (statementLines resolve id w).2 id (statementLines resolve id w).1 := by
  have lines : (t.category id).isInline = false := by
    cases kind : t.category id <;> rw [kind] at statement <;> first | rfl | cases statement
  have grows := (leads_statementLines steady worded.bare worded.lawful).grows
  have outer : ∀ l ∈ w.state.pending, Phrase (statementLines resolve id w).2.state.idiom true l
      ∧ l ≠ "" := fun l mem => ⟨(worded.pending l mem).1.grows grows, (worded.pending l mem).2⟩
  obtain ⟨within, emits⟩ := voiced { w with state := w.state.withPending [] }
    (worded.state (s := w.state.withPending []) (w.state.grows_withPending []) rfl nofun)
  unfold statementLines at outer ⊢
  dsimp only at outer ⊢
  generalize resolve id { w with state := w.state.withPending [] } = result at within emits outer
  obtain ⟨answer, after⟩ := result
  cases answer with
  | error e =>
    refine ⟨within.state (s := State.report _ _ _ _ _)
      ((after.state.grows_withPending w.state.pending).trans (State.grows_report _ _ _ _ _)) rfl outer, ?_⟩
    have failure := phrase_failureLine (I := after.state.idiom) (e := e) emits
    have only : ∀ l ∈ [failureLine e], Phrase after.state.idiom true l ∧ l ≠ "" :=
      List.forall_mem_singleton.mpr failure
    exact ⟨.of_phrases only, fun _ _ => only⟩
  | ok text =>
    obtain ⟨ls, rfl, spread⟩ := emits.spread lines
    dsimp only
    rw [Text.lines_joined (spread.laid.isLine within.stem)]
    refine ⟨within.state (after.state.grows_withPending w.state.pending) rfl outer, ?_⟩
    exact ⟨(Laid.of_phrases within.pending).append spread.laid, fun function block =>
      List.forall_mem_append.mpr ⟨within.pending, spread.plain function block⟩⟩

end

end

end Resolving

open Resolving Workspace

section

variable {t : Tree}

/-- The lines of each statement of a block are laid out, and stay so. -/
theorem Visit.spread_ofBlock {depth : Nat} : ∀ {ids : List NodeId} {w : Workspace},
    (∀ c ∈ ids, (t.category c).isStatement) → (∀ c ∈ ids, Voiced t c (resolveWithin depth c)) →
    (∀ c ∈ ids, Steady t c (resolveWithin depth c)) → Worded t w →
    Worded t (blockLines (resolveWithin depth) ids w).2
      ∧ ∀ v ∈ ofBlock depth ids w,
        Spread t (blockLines (resolveWithin depth) ids w).2 v.statement v.lines
  | [], _, _, _, _, worded => ⟨worded, nofun⟩
  | c :: ids, w, statements, voiced, steady, worded => by
    obtain ⟨statement, statements'⟩ := List.forall_mem_cons.mp statements
    obtain ⟨voicedHere, voicedThere⟩ := List.forall_mem_cons.mp voiced
    obtain ⟨steadyHere, steadyThere⟩ := List.forall_mem_cons.mp steady
    obtain ⟨worded', spread⟩ := spread_statementLines statement voicedHere steadyHere worded
    obtain ⟨last, rest⟩ := spread_ofBlock statements' voicedThere steadyThere worded'
    have grows := (leads_blockLines steadyThere worded'.bare worded'.lawful).grows
    exact ⟨last, List.forall_mem_cons.mpr ⟨spread.grows grows, rest⟩⟩

theorem Cpp.Laid.flatMap {I : Idiom} {vs : List Visit} (h : ∀ v ∈ vs, Laid I v.lines) :
    Laid I (vs.flatMap (·.lines)) := by
  induction vs with
  | nil => exact .nil
  | cons v vs ih =>
    obtain ⟨first, rest⟩ := List.forall_mem_cons.mp h
    exact first.append (ih rest)

namespace Resolving

variable (wf : t.WellFormed) (spelt : t.Spelt .words)
include wf spelt

/-- Any node: what is below it is put together from phrases, so it is. -/
theorem voiced_resolveWithin (depth : Nat) : ∀ {id : NodeId}, id < t.size →
    Voiced t id (resolveWithin depth id) := by
  induction depth with
  | zero => exact fun _ w worded => ⟨worded, phrase_fixed _ _ rfl⟩
  | succ depth ih =>
    intro id lt w worded
    have category : (w.tree.node id).category = t.category id :=
      congrFun (Tree.category_of_bare worded.bare) id
    have voiced : ∀ c ∈ t.children id, Voiced t c (resolveWithin depth c) := fun c mem =>
      ih (wf.bound id c mem)
    have steady : ∀ c ∈ t.children id, Steady t c (resolveWithin depth c) := fun c mem =>
      steady_resolveWithin wf depth (wf.bound id c mem)
    have types : ∀ c ∈ t.children id, Types t c (resolveWithin depth c) := fun c _ =>
      types_resolveWithin wf depth c
    unfold resolveWithin
    split
    case h_1 kind =>
      have block : t.category id = .block := category.symm.trans kind
      obtain ⟨last, spread⟩ := Visit.spread_ofBlock (fun c => wf.isStatement_child block) voiced
        steady worded
      unfold Resolving.block
      rw [Tree.children_of_bare worded.bare]
      refine ⟨last, ?_⟩
      unfold Emits
      dsimp only
      rw [if_neg (by rw [block]; decide)]
      refine ⟨_, rfl, ?_, fun _ other => absurd block other⟩
      rw [← Visit.lines_ofBlock]
      exact .flatMap fun v mem => (spread v mem).laid
    case h_2 kind =>
      have function : t.category id = .function := category.symm.trans kind
      obtain ⟨p, r, b, children, -⟩ := wf.children_function lt function
      obtain ⟨inner, emits⟩ := voiced_function wf spelt lt function children worded.pushScope voiced
        types steady
      exact ⟨inner.popScope, emits.keep (State.grows_popScope _) fun _ _ => rfl⟩
    case h_3 block function =>
      rw [category] at block function
      exact voiced_node wf spelt lt block function voiced types steady w worded

end Resolving

end

/-! ## Whole programs -/

theorem isWordRest_of_isName {x : String} (h : isName x) : ∀ c ∈ x.toList, Token.isWordRest c := by
  refine isWordRest_of_isIdentifier ?_
  unfold isName at h
  split at h
  case h_1 => cases h
  case h_2 letters =>
    unfold isIdentifier
    rw [letters]
    exact (Bool.and_eq_true _ _ |>.mp h).1

namespace Tree.Raw

variable {t : Tree} (raw : t.Raw)
include raw

/-- A program is made of words. -/
theorem spelt_words : t.Spelt .words :=
  ⟨fun i named => isWordRest_of_isName ((raw i).name named),
    fun i s string value => (raw i).line s string value⟩

/-- Before anything is translated a node reads as its name or its category. -/
theorem worded (wf : t.WellFormed) {config : Config} (stem : '\n' ∉ config.tempStem.toList) :
    Worded t ⟨t, .ofConfig config⟩ := by
  refine ⟨rfl, raw.lawful, fun i _ => ?_, fun i _ => ?_, nofun, nofun, stem⟩
  · have blank : (t.node i).rendered = none :=
      raw.forall_node (p := fun n => n.rendered = none) (fun _ => rfl) i
    show Phrase _ _ (t.node i).text
    rw [Node.text, blank, Option.getD_none, Node.label]
    split
    case isTrue => exact phrase_categoryName _
    case isFalse named =>
      have lt : i < t.size := by
        by_contra out
        exact named (by rw [node_of_size_le (Nat.le_of_not_lt out)]; rfl)
      exact phrase_name (raw.spelt_words.plain i ((wf.shaped i lt).name.mp named))
  · have unknown : (t.node i).typing = .unknown :=
      raw.forall_node (p := fun n => n.typing = .unknown) (fun _ => rfl) i
    show (t.node i).typing.datatype.shape ≠ .scalar
    rw [unknown]
    decide

end Tree.Raw

namespace Translator

/-- The statements at the top level are translated one after the other. -/
theorem visits_translate {t : Tree} (wf : t.WellFormed) (config : Config) : ∃ root,
    t.root = some root ∧ t.category root = .block
    ∧ Visit.ofRoot ⟨t, .ofConfig config⟩ = Visit.ofBlock (t.size + 1) (t.children root) ⟨t, .ofConfig config⟩
    ∧ rootLines ⟨t, .ofConfig config⟩
      = blockLines (resolveWithin (t.size + 1)) (t.children root) ⟨t, .ofConfig config⟩ := by
  obtain ⟨root, top, -, block, -⟩ := wf.root
  refine ⟨root, top, block, ?_, rootLines_eq wf top rfl⟩
  rw [Visit.ofRoot, show (Workspace.mk t (.ofConfig config)).tree.root = some root from top]

/-- The lines of each statement are laid out, and mention only helpers that are listed. -/
theorem spread_translate {source : String} {t : Tree} (parsed : Tree.parse source = .ok t)
    {config : Config} (stem : '\n' ∉ config.tempStem.toList) : ∃ last : Workspace,
    last.state.config.tempStem = config.tempStem
    ∧ ((⟨.ofConfig config⟩ : Translator).translate t).1.includes = Include.listed last.state.includes
    ∧ ∀ v ∈ Visit.ofRoot ⟨t, .ofConfig config⟩, Spread t last v.statement v.lines := by
  have wf := Tree.wellFormed_of_parsed parsed
  have raw := Tree.raw_of_parse parsed
  obtain ⟨root, -, block, visits, run⟩ := visits_translate wf config
  have worded := raw.worded wf stem
  have steady : ∀ c ∈ t.children root, Steady t c (resolveWithin (t.size + 1) c) := fun c mem =>
    steady_resolveWithin wf _ (wf.bound root c mem)
  obtain ⟨-, spread⟩ := Visit.spread_ofBlock (fun c => wf.isStatement_child block)
    (fun c mem => voiced_resolveWithin wf raw.spelt_words (t.size + 1) (wf.bound root c mem)) steady
    worded
  have grows := (leads_blockLines steady worded.bare worded.lawful).grows
  refine ⟨_, congrArg Config.tempStem grows.config, ?_, visits ▸ spread⟩
  unfold translate
  rw [run]
  rfl

end Translator

/-! ## What can be read off the lines of a program

Lines that are laid out (`Cpp.Laid`) are balanced as a whole, whatever balanced text stands
between them, and each of them is by itself, but for the braces around the body of a
function (`Translator.statements_balanced`).  Every helper that one of them names is listed
(`Translator.helpers_listed`).

The configuration gives the start of the names of temporaries, which is emitted as it is:
if it opens a delimiter or names a helper, so do the lines with temporaries in them. -/

namespace Text

variable {separator : String}

/-- Pieces may be joined a part at a time. -/
theorem joined_append {xs : List String} (some : xs ≠ []) (ys : List String) :
    joined separator (xs ++ ys) = joined separator (joined separator xs :: ys) := by
  induction xs with
  | nil => exact absurd rfl some
  | cons x xs ih =>
    cases xs with
    | nil => rfl
    | cons x' xs =>
      have rest := ih (List.cons_ne_nil x' xs)
      rw [List.cons_append, List.cons_append, joined, ← List.cons_append, rest]
      cases ys with
      | nil => rfl
      | cons y ys => simp only [joined, String.append_assoc]

end Text

namespace Cpp

variable {I : Idiom} {a j : String} {ls : List String}

theorem Balanced.braces (h : Balanced a) : Balanced ("\x7b" ++ a ++ "\x7d") := by
  have opens : Closed "\x7b" := by decide
  refine ⟨(opens.append h.closed).append (by decide), ?_⟩
  rw [bare_append (opens.append h.closed), bare_append opens, closersAfter_append,
    closersAfter_append, show closersAfter [] (bare "\x7b") = some ['\x7d'] by decide,
    Option.bind_some, show ['\x7d'] = [] ++ ['\x7d'] from rfl, closersAfter_frame h.nested]
  rfl

theorem Balanced.joined_cons (first : Balanced a) (between : Balanced j)
    (rest : Balanced (Text.joined j ls)) : Balanced (Text.joined j (a :: ls)) := by
  cases ls with
  | nil => exact first
  | cons l ls => exact (first.append between).append rest

namespace Laid

/-- Lines are balanced as a whole. -/
theorem balanced (stem : Balanced I.stem) (between : Balanced j) (h : Laid I ls) :
    Balanced (Text.joined j ls) := by
  induction h with
  | nil => exact show Balanced "" by decide
  | line phrase _ _ ih => exact (phrase.balanced stem).joined_cons between ih
  | @braces body ls _ _ ih ih' =>
    have block : Balanced (Text.joined j ("\x7b" :: (body ++ ["\x7d"]))) := by
      cases body with
      | nil => exact between.braces
      | cons l body =>
        rw [← List.cons_append, Text.joined_append (List.cons_ne_nil _ _)]
        have text : Text.joined j [Text.joined j ("\x7b" :: l :: body), "\x7d"]
            = "\x7b" ++ (j ++ Text.joined j (l :: body) ++ j) ++ "\x7d" := by
          simp only [Text.joined, String.append_assoc]
        rw [text]
        exact ((between.append ih).append between).braces
    rw [show "\x7b" :: (body ++ "\x7d" :: ls) = ("\x7b" :: (body ++ ["\x7d"])) ++ ls by simp,
      Text.joined_append (List.cons_ne_nil _ _)]
    exact block.joined_cons between ih'

end Laid

end Cpp

open Cpp Workspace

namespace Translator

/-- Emitted text is well bracketed, if the start of the names of temporaries is a balanced
text on one line: as a whole, and line by line but for the braces around the bodies of
functions. -/
theorem statements_balanced {source : String} {t : Tree} (parsed : Tree.parse source = .ok t)
    {config : Config} (stem : Balanced config.tempStem) (line : '\n' ∉ config.tempStem.toList) :
    let visits := Visit.ofRoot ⟨t, .ofConfig config⟩
    let unit := ((⟨.ofConfig config⟩ : Translator).translate t).1
    (∃ root, t.root = some root ∧ visits.map (·.statement) = t.children root)
      ∧ unit.statements = visits.flatMap (·.lines)
      ∧ (∀ j, Balanced j → Balanced (Text.joined j unit.statements))
      ∧ ∀ v ∈ visits, ∀ l ∈ v.lines, Balanced l
        ∨ t.category v.statement = .function ∧ (l = "\x7b" ∨ l = "\x7d") := by
  intro visits unit
  have wf := Tree.wellFormed_of_parsed parsed
  obtain ⟨root, top, block, all, run⟩ := visits_translate wf config
  obtain ⟨last, same, -, spread⟩ := spread_translate parsed line
  have stem' : Balanced last.state.idiom.stem := by rwa [State.idiom, same]
  have lines : unit.statements = visits.flatMap (·.lines) := by
    rw [show visits = _ from all, Visit.lines_ofBlock]
    exact congrArg Prod.fst run
  refine ⟨⟨root, top, ?_⟩, lines, fun j between => ?_, fun v mem l here => ?_⟩
  · rw [show visits = _ from all, Visit.statements_ofBlock]
  · rw [lines]
    exact (Laid.flatMap fun v mem => (spread v mem).laid).balanced stem' between
  · rcases (spread v mem).laid.cases l here with ⟨phrase, -⟩ | brace
    · exact .inl (phrase.balanced stem')
    · by_cases function : t.category v.statement = .function
      · exact .inr ⟨function, brace⟩
      · have child : v.statement ∈ t.children root := by
          rw [← Visit.statements_ofBlock (t.size + 1) (t.children root) ⟨t, .ofConfig config⟩, ← all]
          exact List.mem_map_of_mem mem
        have statement := wf.isStatement_child block child
        have other : t.category v.statement ≠ .block := by
          intro kind
          rw [kind] at statement
          cases statement
        exact .inl (((spread v mem).plain function other l here).1.balanced stem')

/-- A function around a range, and behind it a temporary next to a string with a delimiter. -/
theorem statements_balanced_range : ∃ t,
    Tree.parse "function y=f(x)\ny=1:x\nend\ng(size(A),'(')\n" = .ok t
    ∧ let config : Config := { declarations := ⟨[("A", ⟨.matrix, .float⟩)]⟩ }
      let visits := Visit.ofRoot ⟨t, .ofConfig config⟩
      let unit := ((⟨.ofConfig config⟩ : Translator).translate t).1
      Balanced config.tempStem ∧ '\n' ∉ config.tempStem.toList
      ∧ unit.statements = ["ivec f(TYPE x)", "\x7b", "y = m2cpp::span<ivec>(1, x) ;", "return y ;",
        "\x7d", "urowvec _aux_urowvec_1 = \x7bA.n_rows, A.n_cols\x7d ;", "g(_aux_urowvec_1, \"(\") ;"]
      ∧ (∃ root, t.root = some root ∧ visits.map (·.statement) = t.children root)
      ∧ unit.statements = visits.flatMap (·.lines)
      ∧ (∀ j, Balanced j → Balanced (Text.joined j unit.statements))
      ∧ ∀ v ∈ visits, ∀ l ∈ v.lines, Balanced l
        ∨ t.category v.statement = .function ∧ (l = "\x7b" ∨ l = "\x7d") := by
  have parses : ∃ t, Tree.parse "function y=f(x)\ny=1:x\nend\ng(size(A),'(')\n" = .ok t
      ∧ ((⟨.ofConfig { declarations := ⟨[("A", ⟨.matrix, .float⟩)]⟩ }⟩ : Translator).translate t).1.statements
        = ["ivec f(TYPE x)", "\x7b", "y = m2cpp::span<ivec>(1, x) ;", "return y ;",
        "\x7d", "urowvec _aux_urowvec_1 = \x7bA.n_rows, A.n_cols\x7d ;", "g(_aux_urowvec_1, \"(\") ;"] :=
    ⟨_, by cbv, by decide +kernel⟩
  obtain ⟨t, run, statements⟩ := parses
  have stem : Balanced ({ declarations := ⟨[("A", ⟨.matrix, .float⟩)]⟩ } : Config).tempStem := by decide
  exact ⟨t, run, stem, by decide, statements, statements_balanced run stem (by decide)⟩

/-- A delimiter in the start of the names of temporaries stays open wherever they stand, and
a line end tears the line in two, be it between balanced parts or not. -/
theorem statements_balanced_not : ∃ t, Tree.parse "y = f(size(A))\n" = .ok t
    ∧ let lines : String → List String := fun tempStem =>
        ((⟨.ofConfig { declarations := ⟨[("A", ⟨.matrix, .float⟩)]⟩, tempStem }⟩ : Translator).translate
          t).1.statements
      lines "(" = ["urowvec (_urowvec_1 = \x7bA.n_rows, A.n_cols\x7d ;", "y = f((_urowvec_1) ;"]
      ∧ ¬Balanced (Text.joined "" (lines "("))
      ∧ Balanced "(\n)" ∧ "y = f((" ∈ lines "(\n)" ∧ ¬Balanced "y = f((" :=
  ⟨_, by cbv, by decide +kernel, by decide +kernel, by decide, by decide +kernel, by decide⟩

/-- A line names only helpers that are listed, if the start of the names of temporaries is on
one line, with its strings closed, and names none itself. -/
theorem helpers_listed {source : String} {t : Tree} (parsed : Tree.parse source = .ok t)
    {config : Config} (closed : Closed config.tempStem) (none : helpers config.tempStem = [])
    (line : '\n' ∉ config.tempStem.toList) :
    let unit := ((⟨.ofConfig config⟩ : Translator).translate t).1
    ∀ l ∈ unit.statements, ∀ h ∈ helpers l, ∃ i ∈ unit.includes, i.helper = h := by
  intro unit l mem h named
  have wf := Tree.wellFormed_of_parsed parsed
  obtain ⟨root, -, -, all, run⟩ := visits_translate wf config
  obtain ⟨last, same, listed, spread⟩ := spread_translate parsed line
  have lines : unit.statements = (Visit.ofRoot ⟨t, .ofConfig config⟩).flatMap (·.lines) := by
    rw [all, Visit.lines_ofBlock]
    exact congrArg Prod.fst run
  rw [lines] at mem
  rcases (Laid.flatMap fun v mem => (spread v mem).laid).cases l mem with ⟨phrase, -⟩ | rfl | rfl
  · have stem : last.state.idiom.stem = config.tempStem := same
    obtain ⟨i, used, eq⟩ := phrase.helpers (by rwa [stem]) (by rwa [stem]) h named
    exact ⟨i, listed ▸ Include.mem_listed.mpr used, eq⟩
  · exact absurd named (by rw [show helpers "\x7b" = [] by decide]; exact List.not_mem_nil)
  · exact absurd named (by rw [show helpers "\x7d" = [] by decide]; exact List.not_mem_nil)

/-- Helpers inside and behind a function; in the string there is none. -/
theorem helpers_listed_ranges : ∃ t,
    Tree.parse "function y=f(x)\ny=1:x\nend\nb=A(:,1:n)\nc='m2cpp::fft('\n" = .ok t
    ∧ let config : Config := { declarations := ⟨[("A", ⟨.matrix, .float⟩)]⟩ }
      let unit := ((⟨.ofConfig config⟩ : Translator).translate t).1
      Closed config.tempStem ∧ helpers config.tempStem = [] ∧ '\n' ∉ config.tempStem.toList
      ∧ unit.statements.flatMap helpers = ["m2cpp::span", "m2cpp::uspan"]
      ∧ unit.includes = [.span, .uspan]
      ∧ ∀ l ∈ unit.statements, ∀ h ∈ helpers l, ∃ i ∈ unit.includes, i.helper = h := by
  have parses : ∃ t, Tree.parse "function y=f(x)\ny=1:x\nend\nb=A(:,1:n)\nc='m2cpp::fft('\n" = .ok t
      ∧ ((⟨.ofConfig { declarations := ⟨[("A", ⟨.matrix, .float⟩)]⟩ }⟩ : Translator).translate
        t).1.statements.flatMap helpers = ["m2cpp::span", "m2cpp::uspan"]
      ∧ ((⟨.ofConfig { declarations := ⟨[("A", ⟨.matrix, .float⟩)]⟩ }⟩ : Translator).translate
        t).1.includes = [.span, .uspan] :=
    ⟨_, by cbv, by decide +kernel, by decide +kernel⟩
  obtain ⟨t, run, named, listed⟩ := parses
  exact ⟨t, run, by decide, by decide, by decide, named, listed,
    helpers_listed run (by decide) (by decide) (by decide)⟩

/-- The start of the names of temporaries may name a helper, which is not listed. -/
theorem helpers_listed_not : ∃ t, Tree.parse "y = f(size(A))\n" = .ok t
    ∧ let config : Config :=
        { declarations := ⟨[("A", ⟨.matrix, .float⟩)]⟩, tempStem := "m2cpp::length " }
      let unit := ((⟨.ofConfig config⟩ : Translator).translate t).1
      unit.statements = ["urowvec m2cpp::length _urowvec_1 = \x7bA.n_rows, A.n_cols\x7d ;",
        "y = f(m2cpp::length _urowvec_1) ;"]
      ∧ unit.includes = []
      ∧ ¬∀ l ∈ unit.statements, ∀ h ∈ helpers l, ∃ i ∈ unit.includes, i.helper = h :=
  ⟨_, by cbv, by decide +kernel, by decide +kernel, by decide +kernel⟩

end Translator

end MatrixScript
