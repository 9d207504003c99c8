/-
# `Proofs.Translation.Turns` — what is there when the turn of a statement comes

Every statement of a program has its turn, at the top level or in the body of a function
(`Visit.all`).  Whatever became of those before it, what is written then is put together
from phrases, no temporary has a blank name, and no rule was applied below the statement
yet, so no node there is redirected (`Visit.Due`).  That nothing but texts and types is
filled in by then is true of any configuration (`Visit.Begins`).
-/
import MatrixScript.Proofs.Translation.Solid

namespace MatrixScript

open Cpp Resolving Workspace

variable {t : Tree}

namespace Visit

/-- The statements of a program: behind a function come those in its body. -/
def all (w : Workspace) : List Visit := (ofRoot w).flatMap fun v => v :: v.inner

/-- The statement of a block, when its turn comes: nothing but texts and types is filled in. -/
structure Begins (t : Tree) (block : NodeId) (v : Visit) : Prop where
  kind : t.category block = .block
  mem : v.statement ∈ t.children block
  enough : Enough t v.depth v.statement
  bare : v.found.tree.bare = t.bare
  lawful : v.found.tree.Lawful

section

variable (wf : t.WellFormed)
include wf

/-- A statement that is translated has a text. -/
theorem Begins.exists_text {block : NodeId} {v : Visit} (begins : v.Begins t block)
    (accepted : ¬t.Refused v.statement) : ∃ text after,
    resolveWithin v.depth v.statement { v.found with state := v.found.state.withPending [] }
      = (.ok text, after) := by
  have safe := fun fails => accepted ((fails_resolveWithin wf (wf.parent?_of_mem begins.mem)
    (.block begins.kind) v.depth (t.below_self v.statement) (wf.bound block v.statement begins.mem)
    begins.enough (w := { v.found with state := v.found.state.withPending [] }) begins.bare
    begins.lawful).mp fails)
  cases run : resolveWithin v.depth v.statement { v.found with state := v.found.state.withPending [] } with
  | mk answer after =>
  rw [run] at safe
  cases answer with
  | error e => exact absurd ⟨e, rfl⟩ safe
  | ok text => exact ⟨text, after, rfl⟩

theorem begins_ofBlock {block : NodeId} (kind : t.category block = .block) (depth : Nat) :
    ∀ {ids : List NodeId} {w : Workspace}, ids ⊆ t.children block → (∀ c ∈ ids, Enough t depth c) →
    w.tree.bare = t.bare → w.tree.Lawful → ∀ v ∈ ofBlock depth ids w, v.Begins t block
  | [], _, _, _, _, _ => nofun
  | c :: ids, w, sub, enough, same, lawful => by
    obtain ⟨mem, sub'⟩ := List.cons_subset.mp sub
    obtain ⟨enoughHere, enoughThere⟩ := List.forall_mem_cons.mp enough
    have first := leads_statementLines (steady_resolveWithin wf depth (wf.bound block c mem)) same lawful
    exact List.forall_mem_cons.mpr ⟨⟨kind, mem, enoughHere, same, lawful⟩,
      begins_ofBlock kind depth sub' enoughThere (first.bare.trans same) (first.lawful lawful)⟩

/-- The body of a function is a block, and its statements are two levels further down. -/
theorem enough_body {depth : Nat} {id : NodeId} (enough : Enough t depth id) (lt : id < t.size)
    (function : t.category id = .function) {p r b : NodeId} (ids : t.children id = [p, r, b]) :
    ∃ d, depth = d + 2 ∧ Enough t (d + 1) b ∧ t.category b = .block := by
  obtain ⟨p', r', b', ids', -, -, body⟩ := wf.children_function lt function
  obtain ⟨rfl, rfl, rfl⟩ : p = p' ∧ r = r' ∧ b = b' := by simpa using ids.symm.trans ids'
  obtain ⟨depth, rfl⟩ := enough.exists_succ
  have within := enough.child wf (c := b) (by simp [ids])
  obtain ⟨d, rfl⟩ := within.exists_succ
  exact ⟨d, rfl, within, body⟩

/-- The statements in the body of a function. -/
theorem Begins.inner {block : NodeId} {v : Visit} (begins : v.Begins t block)
    (function : t.category v.statement = .function) {p r b : NodeId}
    (ids : t.children v.statement = [p, r, b]) : ∀ v' ∈ v.inner, v'.Begins t b := by
  obtain ⟨id, depth, w⟩ := v
  obtain ⟨-, mem, enough, same, lawful⟩ := begins
  obtain ⟨depth, rfl, within, body⟩ := enough_body wf enough (wf.bound block id mem) function ids
  have child : ∀ c ∈ [p, r, b], c ∈ t.children id := fun c mem => by rwa [ids]
  have steady : ∀ c ∈ [p, r], Steady t c (resolveWithin (depth + 1) c) := fun c sub =>
    steady_resolveWithin wf (depth + 1) (wf.bound id c (child c (List.mem_append_left [b] sub)))
  have leads := (steady_texts (w := { w with state := (w.state.withPending []).pushScope }) steady same
    lawful).1
  unfold Visit.inner
  dsimp only
  rw [body?_of_function same function ids]
  generalize texts (resolveWithin (depth + 1)) [p, r]
    { w with state := (w.state.withPending []).pushScope } = results at leads
  obtain ⟨answers, start⟩ := results
  cases answers with
  | error => exact nofun
  | ok =>
    exact begins_ofBlock wf body depth (List.Subset.refl _) (fun c mem => within.child wf mem)
      (leads.bare.trans same) (leads.lawful lawful)

end

/-- The statement of a block, when its turn comes, and what is written by then. -/
structure Due (t : Tree) (config : Config) (block : NodeId) (v : Visit) : Prop where
  config : v.found.state.config = config
  kind : t.category block = .block
  mem : v.statement ∈ t.children block
  enough : Enough t v.depth v.statement
  worded : Worded t v.found
  named : v.found.state.Named
  straight : ∀ i, t.Below v.statement i → (v.found.tree.node i).redirect = none

section

variable (wf : t.WellFormed)
include wf

/-- What is resolved below other children redirects nothing below this one. -/
theorem straight_of_leads {parent c : NodeId} (up : t.parent? c = some parent) {others : List NodeId}
    (ups : ∀ c' ∈ others, t.parent? c' = some parent) (other : c ∉ others) {w w' : Workspace}
    (same : w.tree.bare = t.bare) (leads : w.Leads (fun i => ∃ c' ∈ others, t.Below c' i) w')
    (straight : ∀ i, t.Below c i → (w.tree.node i).redirect = none) :
    ∀ i, t.Below c i → (w'.tree.node i).redirect = none := by
  intro i below
  rcases leads.frame i with kept | ⟨j, ⟨c', mem, there⟩, above⟩
  · exact kept.trans (straight i below)
  · rw [Tree.parent?_of_bare same] at above
    have here := below.trans (Tree.below_of_parent? above)
    obtain rfl := wf.apart up (ups c' mem) here there
    exact absurd mem other

variable (spelt : t.Spelt .words) {config : Config}
include spelt

theorem due_ofBlock {block : NodeId} (kind : t.category block = .block) (depth : Nat) :
    ∀ {ids : List NodeId} {w : Workspace}, ids ⊆ t.children block → ids.Nodup →
    (∀ c ∈ ids, Enough t depth c) → w.state.config = config → Worded t w → w.state.Named →
    (∀ c ∈ ids, ∀ i, t.Below c i → (w.tree.node i).redirect = none) →
    ∀ v ∈ ofBlock depth ids w, v.Due t config block
  | [], _, _, _, _, _, _, _, _ => nofun
  | c :: ids, w, sub, nodup, enough, same, worded, named, straight => by
    obtain ⟨mem, sub'⟩ := List.cons_subset.mp sub
    obtain ⟨other, nodup'⟩ := List.nodup_cons.mp nodup
    obtain ⟨enoughHere, enoughThere⟩ := List.forall_mem_cons.mp enough
    obtain ⟨straightHere, straightThere⟩ := List.forall_mem_cons.mp straight
    have lt : c < t.size := wf.bound block c mem
    have steady := steady_resolveWithin wf depth lt
    have first := (leads_statementLines steady worded.bare worded.lawful).mono
      (Q := fun i => ∃ c' ∈ [c], t.Below c' i) fun i below => ⟨c, List.mem_singleton_self c, below⟩
    refine List.forall_mem_cons.mpr ⟨⟨same, kind, mem, enoughHere, worded, named, straightHere⟩, ?_⟩
    refine due_ofBlock kind depth sub' nodup' enoughThere (first.grows.config.trans same)
      (spread_statementLines (wf.isStatement_child kind mem)
        (voiced_resolveWithin wf spelt depth lt) steady worded).1
      (maintains_statementLines State.lasting_named (maintains_resolveWithin State.lasting_named depth) [] c
        named) fun c' mem' => ?_
    refine straight_of_leads wf (wf.parent?_of_mem (sub' mem'))
      (List.forall_mem_singleton.mpr (wf.parent?_of_mem mem)) (fun eq => ?_) worded.bare first
      (straightThere c' mem')
    exact other (List.mem_singleton.mp eq ▸ mem')

/-- The statements in the body of a function. -/
theorem Due.inner {block : NodeId} {v : Visit} (due : v.Due t config block)
    (function : t.category v.statement = .function) {p r b : NodeId}
    (ids : t.children v.statement = [p, r, b]) : ∀ v' ∈ v.inner, v'.Due t config b := by
  obtain ⟨id, depth, w⟩ := v
  obtain ⟨same, -, mem, enough, worded, named, straight⟩ := due
  have lt : id < t.size := wf.bound block id mem
  obtain ⟨depth, rfl, within, body⟩ := enough_body wf enough lt function ids
  have child : ∀ c ∈ [p, r, b], c ∈ t.children id := fun c mem => by rwa [ids]
  have opened : Worded t { w with state := (w.state.withPending []).pushScope } :=
    (worded.state (s := w.state.withPending []) (w.state.grows_withPending []) rfl nofun).pushScope
  have front : ∀ c ∈ [p, r], c ∈ t.children id := fun c sub => child c (List.mem_append_left [b] sub)
  have steady : ∀ c ∈ [p, r], Steady t c (resolveWithin (depth + 1) c) := fun c sub =>
    steady_resolveWithin wf (depth + 1) (wf.bound id c (front c sub))
  have nodup := wf.nodup_children id
  rw [ids, show [p, r, b] = [p, r] ++ [b] from rfl, List.nodup_append] at nodup
  have heads := voiced_texts wf (fun c sub => voiced_resolveWithin wf spelt (depth + 1)
    (wf.bound id c (front c sub))) (fun c _ => types_resolveWithin wf (depth + 1) c) steady
    (fun c sub => wf.parent?_of_mem (front c sub)) nodup.1 opened
  have leads := (steady_texts steady opened.bare opened.lawful).1
  have names := maintains_texts (maintains_resolveWithin State.lasting_named (depth + 1)) [p, r] []
    { w with state := (w.state.withPending []).pushScope } named
  unfold Visit.inner
  dsimp only
  rw [body?_of_function worded.bare function ids]
  generalize texts (resolveWithin (depth + 1)) [p, r]
    { w with state := (w.state.withPending []).pushScope } = results at heads leads names
  obtain ⟨answers, start⟩ := results
  cases answers with
  | error => exact nofun
  | ok found =>
    refine due_ofBlock wf spelt body depth (List.Subset.refl _) (wf.nodup_children b)
      (fun c mem => within.child wf mem) (leads.grows.config.trans same) heads.1 names fun c mem i below => ?_
    have under := child b (by simp)
    refine straight_of_leads wf (wf.parent?_of_mem under) (fun c' sub => wf.parent?_of_mem (front c' sub))
      (fun there => nodup.2.2 b there b (by simp) rfl) opened.bare leads (fun i below => ?_) i
      ((wf.below_of_mem mem).trans below)
    exact straight i ((wf.below_of_mem under).trans below)

end

theorem inner_of_ne {v : Visit} (same : v.found.tree.bare = t.bare)
    (other : t.category v.statement ≠ .function) : v.inner = [] := by
  obtain ⟨id, depth, w⟩ := v
  unfold inner
  dsimp only at same other ⊢
  split
  case h_1 depth =>
    have none : body? (resolveWithin (depth + 1)) id w = none := by
      unfold body?
      split
      case h_1 function _ =>
        exact absurd ((congrFun (Tree.category_of_bare same) id).symm.trans function) other
      case h_2 => rfl
    rw [none]
  case h_2 => rfl

theorem Due.begins {config : Config} {block : NodeId} {v : Visit} (due : v.Due t config block) :
    v.Begins t block :=
  ⟨due.kind, due.mem, due.enough, due.worded.bare, due.worded.lawful⟩

/-- Any statement of a program. -/
theorem exists_begins {source : String} (parsed : Tree.parse source = .ok t) (config : Config) :
    ∀ v ∈ all ⟨t, .ofConfig config⟩, ∃ block, v.Begins t block := by
  have wf := Tree.wellFormed_of_parsed parsed
  obtain ⟨root, top, kind, visits, -⟩ := Translator.visits_translate wf config
  have begins : ∀ v ∈ ofRoot ⟨t, .ofConfig config⟩, v.Begins t root := by
    rw [visits]
    exact begins_ofBlock wf kind (t.size + 1) (List.Subset.refl _) (fun c mem => enough_of_root wf top mem)
      rfl (Tree.raw_of_parse parsed).lawful
  intro v mem
  obtain ⟨v', there, mem⟩ := List.mem_flatMap.mp mem
  have outer := begins v' there
  rcases List.mem_cons.mp mem with rfl | inside
  · exact ⟨root, outer⟩
  · by_cases function : t.category v'.statement = .function
    · obtain ⟨p, r, b, ids, -⟩ := wf.children_function (wf.bound root _ outer.mem) function
      exact ⟨b, outer.inner wf function ids v inside⟩
    · rw [inner_of_ne outer.bare function] at inside
      exact absurd inside List.not_mem_nil

section

variable {source : String} (parsed : Tree.parse source = .ok t) {config : Config}
  (stem : '\n' ∉ config.tempStem.toList)
include parsed stem

/-- The statements at the top level of a program. -/
theorem exists_due_ofRoot : ∃ root, ∀ v ∈ ofRoot ⟨t, .ofConfig config⟩, v.Due t config root := by
  have wf := Tree.wellFormed_of_parsed parsed
  have raw := Tree.raw_of_parse parsed
  obtain ⟨root, top, kind, visits, -⟩ := Translator.visits_translate wf config
  rw [visits]
  exact ⟨root, due_ofBlock wf raw.spelt_words kind (t.size + 1) (List.Subset.refl _) (wf.nodup_children root)
      (fun c mem => enough_of_root wf top mem) rfl (raw.worded wf stem) nofun fun _ _ i _ =>
        raw.forall_node (p := fun n => n.redirect = none) (fun _ => rfl) i⟩

/-- Any statement of a program. -/
theorem exists_due : ∀ v ∈ all ⟨t, .ofConfig config⟩, ∃ block, v.Due t config block := by
  have wf := Tree.wellFormed_of_parsed parsed
  have raw := Tree.raw_of_parse parsed
  obtain ⟨root, due⟩ := exists_due_ofRoot parsed stem
  intro v mem
  obtain ⟨v', there, mem⟩ := List.mem_flatMap.mp mem
  have outer := due v' there
  rcases List.mem_cons.mp mem with rfl | inside
  · exact ⟨root, outer⟩
  · by_cases function : t.category v'.statement = .function
    · obtain ⟨p, r, b, ids, -⟩ := wf.children_function (wf.bound root _ outer.mem) function
      exact ⟨b, outer.inner wf raw.spelt_words function ids v inside⟩
    · rw [inner_of_ne outer.worded.bare function] at inside
      exact absurd inside List.not_mem_nil

end

end Visit

end MatrixScript
