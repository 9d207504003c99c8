/-
# `Proofs.Translation.Next` — one program after another

A translator that has resolved the root of one program resolves that of another one, a
tree of its own.  If the variables that the first program assigns are declared, all that
matters of it is which temporaries it has made (`State.afresh`).  As long as no node of
the second program that goes into a temporary has the number of a node of the first that
did, these only push up the numbers of the new ones, type by type (`Text.Renumbered`).
`Translator.resolve_next` says both.

Temporaries are found by the numbers of their nodes, and every tree numbers its nodes from
zero.  So a node can be taken for one of the program before, and its temporary is then
defined by an expression of that program (`Translator.resolve_next_not`).
-/
import MatrixScript.Proofs.Translation.Again
import MatrixScript.Proofs.Translation.Placed
import MatrixScript.Proofs.Translation.Sized

namespace MatrixScript

open Text

/-! ## Texts with other numbers -/

/-- The second text is put together like the first one, of the same fixed pieces and of the
names and strings of the program `t`, and has the same temporaries with other numbers, `new d n`
for number `n` of the type `d`.  Whatever relates such pieces and such names relates the texts. -/
def Text.Renumbered (t : Tree) (stem : String) (new : String → Nat → Nat) (a a' : String) : Prop :=
  ∀ L : Likeness, t.Spelt L →
    (∀ (m : Mark) (d : Datatype) (n : Nat), m ≠ .word →
      L.like m (State.numbered stem d n) (State.numbered stem d (new d.typeName n)) .word) →
    L.prints a a'

/-- The word `w'` stands for `w`: it is the same, or has the other number if `w` is a temporary. -/
structure Text.Renamed (stem : String) (new : String → Nat → Nat) (w w' : List Char) : Prop where
  temporary : ∀ d n, w = (State.numbered stem d n).toList →
    w' = (State.numbered stem d (new d.typeName n)).toList
  other : (∀ d n, w ≠ (State.numbered stem d n).toList) → w' = w

/-- A word that does not reach behind a character that it lacks. -/
theorem Text.prefix_append_iff {p front rest : List Char} {c : Char} (there : c ∈ front)
    (absent : c ∉ p) : p <+: front ++ rest ↔ p <+: front := by
  refine ⟨fun h => ?_, fun h => h.trans (List.prefix_append front rest)⟩
  rcases List.prefix_or_prefix_of_prefix h (List.prefix_append front rest) with short | long
  · exact short
  · exact absurd (long.subset there) absent

/-- Temporaries with other numbers, and all other words as they are. -/
def Wording.renumbering (stem : String) (new : String → Nat → Nat) : Wording where
  word _ := Text.Renamed stem new
  plain x := isName x ∧ Distinct stem x
  fixed unnumbered :=
    ⟨fun d n eq => absurd (eq ▸ unnumbered) (State.not_isUnnumbered d n), fun _ => rfl⟩
  named plain := ⟨plain.1, ⟨fun d n eq => absurd eq (plain.2.plain d n), fun _ => rfl⟩,
    ⟨fun d n eq => absurd eq (plain.2.hidden d n), fun _ => rfl⟩⟩
  returns {_ w w'} same := by
    by_cases temporary : ∃ d n, w = (State.numbered stem d n).toList
    case neg =>
      rw [same.other fun d n eq => temporary ⟨d, n, eq⟩]
    case pos =>
      obtain ⟨d, n, eq⟩ := temporary
      have starts : ∀ k, "return".toList <+: (State.numbered stem d k).toList
          ↔ "return".toList <+: (stem ++ "_" ++ d.typeName ++ "_").toList := by
        intro k
        rw [State.numbered, String.toList_append]
        exact prefix_append_iff (c := '_') (by simp) (by decide)
      rw [eq, same.temporary d n eq, starts, starts]

/-- Lines of the same pieces have words that go together. -/
theorem Wording.Line.identifiers {R : Wording} {a a' : String} (h : R.Line a a') :
    List.Forall₂ (fun x x' => ∃ gap, R.word gap x.toList x'.toList) (identifiers a)
      (identifiers a') := by
  have same := h.2.2
  unfold Text.identifiers
  generalize pieces a = ps at same
  generalize pieces a' = ps' at same
  induction same with
  | nil => exact .nil
  | cons first _ ih =>
    cases first with
    | @word gap w w' word =>
      refine .cons ⟨gap, ?_⟩ ih
      rwa [String.toList_ofList, String.toList_ofList]
    | mark | quoted => exact ih

namespace Text.Renumbered

variable {t : Tree} {stem : String} {new : String → Nat → Nat} {a a' : String}

/-- Where temporaries are words that the program does not have, the lines consist of the same
pieces, with temporaries of other numbers. -/
theorem lines (h : Renumbered t stem new a a') (raw : t.Raw) (identifier : isIdentifier stem)
    (distinct : ∀ x ∈ t.identifiers, Distinct stem x) :
    List.Forall₂ (Wording.renumbering stem new).Line (Text.lines a) (Text.lines a') := by
  refine Wording.Prints.lines (h (Wording.renumbering stem new).likeness
    ⟨fun i named => ⟨(raw i).name named, distinct _ (Tree.mem_identifiers named)⟩,
      fun i => (raw i).line⟩ ?_)
  intro m d n apart
  have words : (Wording.renumbering stem new).Like m
      (String.ofList (State.numbered stem d n).toList)
      (String.ofList (State.numbered stem d (new d.typeName n)).toList) .word := by
    refine Wording.like_words apart (State.numbered_ne_nil stem d _) (State.numbered_ne_nil stem d _)
      (State.isWordRest_numbered identifier d _) (State.isWordRest_numbered identifier d _)
      fun _ _ => ⟨fun d' n' eq => ?_, fun other => absurd rfl (other d n)⟩
    obtain ⟨types, rfl⟩ := State.numbered_inj (String.toList_injective eq)
    rw [State.numbered, State.numbered, types]
  rwa [String.ofList_toList, String.ofList_toList] at words

/-- All words but the temporaries stay. -/
theorem mem_words (h : Renumbered t stem new a a') (raw : t.Raw) (identifier : isIdentifier stem)
    (distinct : ∀ x ∈ t.identifiers, Distinct stem x) {x : String} (plain : Distinct stem x)
    (mem : x ∈ (Text.lines a).flatMap identifiers) : x ∈ (Text.lines a').flatMap identifiers := by
  have words : List.Forall₂ _ ((Text.lines a).flatMap identifiers)
      ((Text.lines a').flatMap identifiers) :=
    List.rel_flatMap (h.lines raw identifier distinct) fun _ _ line => line.identifiers
  obtain ⟨i, lt, rfl⟩ := List.getElem_of_mem mem
  have lt' := words.length_eq ▸ lt
  obtain ⟨_, renamed⟩ := words.get lt lt'
  have same : ((Text.lines a').flatMap identifiers)[i] = ((Text.lines a).flatMap identifiers)[i] :=
    String.toList_injective (renamed.other plain.plain)
  exact same ▸ List.getElem_mem lt'

end Text.Renumbered

/-! ## What is remembered between programs -/

namespace State

/-- How many temporaries of a type there are. -/
def made (s : State) (type : String) : Nat := (s.counters.get? type).getD 0

/-- A new state under the same configuration, in which only temporaries are remembered. -/
def afresh (s : State) : State :=
  { ofConfig s.config with temporaries := s.temporaries, counters := s.counters }

/-- Between two programs nothing is pending, and no type of a variable is inferred. -/
structure Rests (config : Config) (s : State) : Prop where
  config : s.config = config
  scope : s.scope = .empty
  outer : s.outer = []
  pending : s.pending = []
  numbered : s.Numbered

end State

/-- A program whose assigned variables are declared leaves no types and nothing pending. -/
theorem Resolving.rests_resolveWithin {t : Tree} (wf : t.WellFormed) (raw : t.Raw) {config : Config}
    (declared : ∀ x ∈ t.assigned, config.declarations.contains x) {root : NodeId}
    (lt : root < t.size) (block : t.category root = .block) :
    (resolveWithin (t.size + 1) root ⟨t, .ofConfig config⟩).2.state.Rests config := by
  have leads := (steady_resolveWithin wf (t.size + 1) lt).leads ⟨t, .ofConfig config⟩ rfl raw.lawful
  have noted := maintains_resolveWithin State.lasting_noted (t.size + 1) root []
    ⟨t, .ofConfig config⟩ (State.noted_ofConfig config)
  exact ⟨leads.grows.config, leads.scope fun j c _ taken var => declared _ (wf.mem_assigned taken var),
    leads.outer, (block_returns block (w := ⟨t, .ofConfig config⟩) rfl t.size).2, noted.1⟩

/-! ## Only temporaries matter -/

namespace State

/-- Both translations know the same types of variables, and the second one has a clock that
was started if the first one has. -/
structure Abreast (s s' : State) : Prop where
  config : s'.config = s.config
  scope : s'.scope = s.scope
  outer : s'.outer = s.outer
  started : s.clock.started → s'.clock.started

namespace Abreast

variable {s s' : State} (h : Abreast s s')
include h

theorem lookup (x : String) : s'.lookup x = s.lookup x := by
  rw [State.lookup, State.lookup, h.config, h.scope]

theorem clock : s'.clock.started = s.clock.started ∨ True ∧ s.clock.started = false := by
  cases first : s.clock.started with
  | true => exact .inl (h.started first)
  | false => exact .inr ⟨trivial, rfl⟩

/-- The same types are recorded. -/
theorem record (x : String) (d : Datatype) : ∃ scope suggestions suggestions',
    s.record x d = { s with scope, suggestions }
      ∧ s'.record x d = { s' with scope, suggestions := suggestions' } := by
  have declared : s'.isDeclared x = s.isDeclared x := by rw [isDeclared, isDeclared, h.config]
  have merged : s'.merged x d = s.merged x d := by rw [State.merged, State.merged, h.scope]
  unfold State.record
  rw [declared]
  split
  · exact ⟨s.scope, s.suggestions, s'.suggestions, rfl, by rw [← h.scope]⟩
  · exact ⟨_, _, _, rfl, by rw [merged, h.scope]⟩

theorem popScope : ∃ scope outer,
    s.popScope = { s with scope, outer } ∧ s'.popScope = { s' with scope, outer } := by
  unfold State.popScope
  rw [h.outer]
  split
  case h_1 none => exact ⟨s.scope, s.outer, rfl, by rw [← h.scope, ← h.outer]⟩
  case h_2 scope outer some => exact ⟨scope, outer, rfl, rfl⟩

end Abreast

/-- The second translation remembers more, but no more of what rules look at. -/
structure Recalls (s s' : State) : Prop extends Abreast s s' where
  pending : s'.pending = s.pending
  temporaries : s'.temporaries = s.temporaries
  counters : s'.counters = s.counters

/-- The same is hoisted, under the same name. -/
theorem Recalls.hoist {s s' : State} (h : Recalls s s') (i : NodeId) (a : String) (d : Datatype) :
    s'.temporaryName i d = s.temporaryName i d ∧ Recalls (s.hoist i a d) (s'.hoist i a d) := by
  have found : s'.temporary? i = s.temporary? i := by rw [temporary?, temporary?, h.temporaries]
  have number : s'.nextNumber d = s.nextNumber d := by rw [nextNumber, nextNumber, h.counters]
  have name : s'.nextName d = s.nextName d := by rw [nextName, nextName, h.config, number]
  refine ⟨by rw [temporaryName, temporaryName, found, name], ?_⟩
  unfold State.hoist
  rw [found, name, number, h.pending]
  dsimp only
  split
  · split
    · exact h
    · exact { h with pending := rfl }
  · exact { h with
      pending := rfl
      temporaries := congrArg (· ++ _) h.temporaries
      counters := congrArg (fun counters => NameTable.insert counters _ _) h.counters }

/-- Both translations see the same. -/
def recalling (last : State) : Simulation .same True last where
  rel := Recalls
  assigns _ := True
  lookup h := h.lookup
  clock h := h.clock
  pending h := by
    rw [h.pending]
    exact List.forall₂_same.mpr fun _ _ => rfl
  report h _ _ := { h with }
  silent _ h _ := { h with }
  addInclude h _ := { h with }
  record {_ _ x d} _ h := by
    obtain ⟨scope, _, _, eq, eq'⟩ := h.record x d
    rw [eq, eq']
    exact { h with scope := rfl }
  hoist h _ same := by
    obtain rfl := same
    obtain ⟨name, rel⟩ := h.hoist _ _ _
    exact ⟨name.symm, rel⟩
  tic h _ := { h with started := fun _ => rfl }
  toc h _ := { h with }
  opened h := { h with pending := rfl }
  closed h _ _ k := { k with pending := h.pending }
  pushScope h := { h with scope := rfl, outer := congrArg₂ List.cons h.scope h.outer }
  popScope h := by
    obtain ⟨scope, outer, eq, eq'⟩ := h.toAbreast.popScope
    rw [eq, eq']
    exact { h with scope := rfl, outer := rfl }

end State

/-! ## Temporaries push up the numbers of others -/

/-- Temporaries with names and definitions that are alike. -/
structure Temporary.Alike (L : Likeness) (e e' : Temporary) : Prop where
  name : L.Shows e.name e'.name
  definition : L.line e.definition e'.definition

namespace State

/-- A temporary can be told from its definition. -/
theorem Numbered.eq_of_definition {s : State} (h : s.Numbered) {e e' : Temporary}
    (mem : e ∈ s.temporaries) (mem' : e' ∈ s.temporaries) (eq : e.definition = e'.definition) :
    e = e' := by
  obtain ⟨d, n, text, name, line, -⟩ := h.made e mem
  obtain ⟨d', n', text', name', line', -⟩ := h.made e' mem'
  rw [line, line', name, name'] at eq
  obtain ⟨types, rfl⟩ := definition_inj eq
  refine List.inj_on_of_nodup_map h.names mem mem' ?_
  rw [name, name', State.numbered, State.numbered, types]

/-- Lines that define the temporaries of one node in both states. -/
def Defines (L : Likeness) (s s' : State) (line line' : String) : Prop :=
  ∃ i e e', s.temporary? i = some e ∧ s'.temporary? i = some e' ∧ e.Alike L e'
    ∧ e.definition = line ∧ e'.definition = line'

theorem Defines.mono {L : Likeness} {s s' r r' : State} {line line' : String}
    (h : Defines L s s' line line')
    (kept : ∀ {i e}, s.temporary? i = some e → r.temporary? i = some e)
    (kept' : ∀ {i e}, s'.temporary? i = some e → r'.temporary? i = some e) :
    Defines L r r' line line' := by
  obtain ⟨i, e, e', there, there', rest⟩ := h
  exact ⟨i, e, e', kept there, kept' there', rest⟩

theorem Defines.line {L : Likeness} {s s' : State} {line line' : String}
    (h : Defines L s s' line line') : L.line line line' := by
  obtain ⟨_, _, _, _, _, alike, rfl, rfl⟩ := h
  exact alike.definition

/-- The second translation remembers the temporaries of `left` from before, and has made those
of the first one with other numbers. -/
structure Pushed (L : Likeness) (left s s' : State) : Prop extends Abreast s s' where
  numbered : s.Numbered
  numbered' : s'.Numbered
  made : ∀ type, s'.made type = s.made type + left.made type
  temporary : ∀ i, left.temporary? i = none →
    Option.Rel (Temporary.Alike L) (s.temporary? i) (s'.temporary? i)
  pending : List.Forall₂ (Defines L s s') s.pending s'.pending

namespace Pushed

variable {L : Likeness} {left s s' r r' : State} (h : Pushed L left s s')
include h

/-- Temporaries are as they were. -/
theorem congr (abreast : Abreast r r') (config : r.config = s.config)
    (temporaries : r.temporaries = s.temporaries) (temporaries' : r'.temporaries = s'.temporaries)
    (counters : r.counters = s.counters) (counters' : r'.counters = s'.counters)
    (pending : r.pending = s.pending) (pending' : r'.pending = s'.pending) :
    Pushed L left r r' := by
  have found : ∀ i, r.temporary? i = s.temporary? i := fun i => by
    rw [temporary?, temporary?, temporaries]
  have found' : ∀ i, r'.temporary? i = s'.temporary? i := fun i => by
    rw [temporary?, temporary?, temporaries']
  have config' : r'.config = s'.config := by rw [abreast.config, config, h.config]
  refine ⟨abreast, h.numbered.congr config temporaries counters,
    h.numbered'.congr config' temporaries' counters', fun type => ?_, fun i new => ?_, ?_⟩
  · rw [State.made, counters', State.made, counters]
    exact h.made type
  · rw [found, found']
    exact h.temporary i new
  · rw [pending, pending']
    exact h.pending.imp fun _ _ defines =>
      defines.mono (fun there => (found _).trans there) fun there' => (found' _).trans there'

/-- Lines define the temporary of a node in both or in neither. -/
theorem eq_definition_iff {line line' : String} (defines : Defines L s s' line line') {i : NodeId}
    {e e' : Temporary} (found : s.temporary? i = some e) (found' : s'.temporary? i = some e') :
    e.definition = line ↔ e'.definition = line' := by
  obtain ⟨j, f, f', there, there', -, rfl, rfl⟩ := defines
  obtain ⟨mem, node⟩ := mem_of_temporary? found
  obtain ⟨mem', node'⟩ := mem_of_temporary? found'
  obtain ⟨other, at'⟩ := mem_of_temporary? there
  obtain ⟨other', at''⟩ := mem_of_temporary? there'
  constructor
  · intro eq
    obtain rfl := h.numbered.eq_of_definition mem other eq
    obtain rfl : i = j := node.symm.trans at'
    rw [Option.some.inj (found'.symm.trans there')]
  · intro eq
    obtain rfl := h.numbered'.eq_of_definition mem' other' eq
    obtain rfl : i = j := node'.symm.trans at''
    rw [Option.some.inj (found.symm.trans there)]

/-- A definition is pending in both or in neither. -/
theorem mem_pending {i : NodeId} {e e' : Temporary} (found : s.temporary? i = some e)
    (found' : s'.temporary? i = some e') :
    e.definition ∈ s.pending ↔ e'.definition ∈ s'.pending := by
  have pending := h.pending
  generalize s.pending = ls at pending
  generalize s'.pending = ls' at pending
  induction pending with
  | nil => exact ⟨nofun, nofun⟩
  | cons first _ ih =>
    rw [List.mem_cons, List.mem_cons]
    exact or_congr (h.eq_definition_iff first found found') ih

/-- The temporary of a node is found again. -/
theorem hoist_found {i : NodeId} {e e' : Temporary} (found : s.temporary? i = some e)
    (found' : s'.temporary? i = some e') (alike : e.Alike L e') (a a' : String) (d : Datatype) :
    Pushed L left (s.hoist i a d) (s'.hoist i a' d) := by
  have both := h.mem_pending found found'
  unfold State.hoist
  rw [found, found']
  dsimp only
  by_cases there : e.definition ∈ s.pending
  · rw [if_pos there, if_pos (both.mp there)]
    exact h
  · rw [if_neg there, if_neg (mt both.mpr there)]
    have added := List.rel_append h.pending
      (.cons ⟨i, e, e', found, found', alike, rfl, rfl⟩ .nil)
    exact { h with
      numbered := h.numbered.congr rfl rfl rfl
      numbered' := h.numbered'.congr rfl rfl rfl
      pending := added }

/-- A new temporary has the next number in each. -/
theorem nextNumber (d : Datatype) :
    s'.nextNumber d = s.nextNumber d + left.made d.typeName := by
  have made := h.made d.typeName
  rw [State.made, State.made] at made
  rw [State.nextNumber, State.nextNumber, made]
  omega

/-- Both make a temporary. -/
theorem hoist_new {i : NodeId} (new : s.temporary? i = none) (new' : s'.temporary? i = none)
    {a a' : String} {d : Datatype}
    (alike : (Temporary.mk i (s.nextName d) (definition (s.nextName d) a d)).Alike L
      ⟨i, s'.nextName d, definition (s'.nextName d) a' d⟩) :
    Pushed L left (s.hoist i a d) (s'.hoist i a' d) := by
  have found := temporary?_hoist_of_new new a d
  have found' := temporary?_hoist_of_new new' a' d
  have grows := s.grows_hoist i a d
  have grows' := s'.grows_hoist i a' d
  have abreast : Abreast (s.hoist i a d) (s'.hoist i a' d) := by
    rw [hoist_of_new new, hoist_of_new new']
    exact { h with }
  refine ⟨abreast, h.numbered.hoist i a d, h.numbered'.hoist i a' d, fun type => ?_,
    fun j free => ?_, ?_⟩
  · rw [hoist_of_new new, hoist_of_new new', State.made, State.made, NameTable.get?_insert,
      NameTable.get?_insert]
    split
    case isTrue here =>
      rw [here]
      exact h.nextNumber d
    case isFalse => exact h.made type
  · rw [found, found']
    split
    · exact .some alike
    · exact h.temporary j free
  · rw [congrArg State.pending (hoist_of_new new a d),
      congrArg State.pending (hoist_of_new new' a' d)]
    exact List.rel_append
      (h.pending.imp fun _ _ defines => defines.mono grows.temporary? grows'.temporary?)
      (.cons ⟨i, _, _, by rw [found, if_pos rfl], by rw [found', if_pos rfl], alike, rfl, rfl⟩ .nil)

end Pushed

/-- Every likeness for which numbers of temporaries may be pushed up relates the new ones. -/
theorem alike_definitions {L : Likeness} {x x' : String} {d : Datatype}
    (names : ∀ m, m ≠ .word → L.like m x x' .word) {i : NodeId} {a a' : String}
    (shows : L.Shows a a') : (Temporary.mk i x (definition x a d)).Alike L ⟨i, x', definition x' a' d⟩ := by
  refine ⟨names .free (by decide), ?_⟩
  have front := (Likeness.shows_typeName (L := L) d).append (L.fixed (a := " ") (e := .gap) rfl)
  have named := (front.append (names .gap (by decide))).put " = " rfl
  exact L.line_of_like ((named.append shows).put " ;" rfl) (by simp [definition])

/-- The second translation makes the temporaries of the first one with other numbers. -/
def pushing {L : Likeness} (left last : State)
    (names : ∀ (m : Mark) (d : Datatype) (n : Nat), m ≠ .word →
      L.like m (numbered last.config.tempStem d n)
        (numbered last.config.tempStem d (n + left.made d.typeName)) .word)
    (apart : ∀ e ∈ last.temporaries, left.temporary? e.node = none) : Simulation L True last where
  rel := Pushed L left
  assigns _ := True
  lookup h := h.lookup
  clock h := h.clock
  pending h := h.pending.imp fun _ _ defines => defines.line
  report h _ _ := h.congr { h with } rfl rfl rfl rfl rfl rfl rfl
  silent _ h _ := h.congr { h with } rfl rfl rfl rfl rfl rfl rfl
  addInclude h _ := h.congr { h with } rfl rfl rfl rfl rfl rfl rfl
  record {_ _ x d} _ h := by
    obtain ⟨scope, _, _, eq, eq'⟩ := h.record x d
    rw [eq, eq']
    exact h.congr { h with scope := rfl } rfl rfl rfl rfl rfl rfl rfl
  hoist {s s' i a a' d} h grows shows := by
    have stem : s.config.tempStem = last.config.tempStem := by
      rw [grows.config, (s.grows_hoist i a d).config]
    have free : left.temporary? i = none := by
      obtain ⟨e, found, -⟩ := s.temporary?_hoist i a d
      obtain ⟨mem, rfl⟩ := mem_of_temporary? found
      exact apart e (grows.temporaries.subset mem)
    have kept := h.temporary i free
    cases found : s.temporary? i with
    | some e =>
      rw [found] at kept
      generalize found' : s'.temporary? i = other at kept
      cases kept with
      | some alike =>
        rw [temporaryName, found, temporaryName, found']
        exact ⟨alike.name, h.hoist_found found found' alike a a' d⟩
    | none =>
      rw [found] at kept
      generalize found' : s'.temporary? i = other at kept
      cases kept with
      | none =>
        have alike : (Temporary.mk i (s.nextName d) (definition (s.nextName d) a d)).Alike L
            ⟨i, s'.nextName d, definition (s'.nextName d) a' d⟩ := by
          refine alike_definitions (fun m apart => ?_) shows
          rw [nextName_eq, nextName_eq, h.config, h.nextNumber, stem]
          exact names m d _ apart
        rw [temporaryName, found, temporaryName, found']
        exact ⟨alike.name, h.hoist_new found found' alike⟩
  tic h _ := h.congr { h with started := fun _ => rfl } rfl rfl rfl rfl rfl rfl rfl
  toc h _ := h.congr { h with } rfl rfl rfl rfl rfl rfl rfl
  opened h := { h with
    numbered := h.numbered.congr rfl rfl rfl
    numbered' := h.numbered'.congr rfl rfl rfl
    pending := .nil }
  closed h grows grows' k := { k with
    numbered := k.numbered.congr rfl rfl rfl
    numbered' := k.numbered'.congr rfl rfl rfl
    pending := h.pending.imp fun _ _ defines => defines.mono grows.temporary? grows'.temporary? }
  pushScope h := h.congr { h with scope := rfl, outer := congrArg₂ List.cons h.scope h.outer }
    rfl rfl rfl rfl rfl rfl rfl
  popScope h := by
    obtain ⟨scope, outer, eq, eq'⟩ := h.toAbreast.popScope
    rw [eq, eq']
    exact h.congr { h with scope := rfl, outer := rfl } rfl rfl rfl rfl rfl rfl rfl

end State

/-! ## The second program -/

namespace Resolving

open Workspace

/-- Two translations of a program that start together give texts that are alike. -/
theorem prints_of_simulation {t : Tree} (wf : t.WellFormed) (raw : t.Raw) {root : NodeId}
    (lt : root < t.size) (block : t.category root = .block) (up : t.parent? root = none)
    {L : Likeness} (spelt : t.Spelt L) {quieter : Prop} {s s' : State}
    (sim : Simulation L quieter (resolveWithin (t.size + 1) root ⟨t, s⟩).2.state)
    (assigned : ∀ x, sim.assigns x) (start : sim.rel s s') :
    ∃ text text', (resolveWithin (t.size + 1) root ⟨t, s⟩).1 = .ok text
      ∧ (resolveWithin (t.size + 1) root ⟨t, s'⟩).1 = .ok text' ∧ L.prints text text' := by
  generalize run : resolveWithin (t.size + 1) root ⟨t, s⟩ = first at sim start
  have locks : Locks t first.2 sim t ⟨t, s⟩ ⟨t, s'⟩ := by
    have none : ∀ i, (t.node i).redirect.isSome = false := fun i => by
      rw [← (raw i).bare]
      rfl
    exact ⟨rfl, rfl, raw.lawful, raw.lawful, fun _ => id,
      fun i some => by simp [none i] at some, fun _ => ⟨.inr rfl, .inr rfl, .inr rfl, .inr rfl⟩, start⟩
  have locked : Locked t first.2 sim t root (resolveWithin (t.size + 1) root) :=
    locked_resolveWithin wf spelt (fun _ _ _ _ => assigned _) (t.size + 1) lt
  have both := locked ⟨t, s⟩ ⟨t, s'⟩ locks (Tree.near_of_loose up)
  rw [run] at both
  obtain ⟨-, together, -⟩ := both ⟨.refl _, fun _ => id⟩ fun _ _ => id
  obtain ⟨text, answer⟩ := (block_returns block (w := ⟨t, s⟩) rfl t.size).1
  obtain ⟨text', answer'⟩ := (block_returns block (w := ⟨t, s'⟩) rfl t.size).1
  rw [run] at answer
  rw [answer, answer', block] at together
  cases together with
  | give prints => exact ⟨text, text', answer, answer', prints⟩

end Resolving

/-- Two matrices and two numbers. -/
def Config.matrices : Config where
  declarations := ⟨[("A", ⟨.matrix, .float⟩), ("B", ⟨.matrix, .float⟩), ("x", ⟨.scalar, .float⟩),
    ("y", ⟨.scalar, .float⟩)]⟩

namespace Translator

open Resolving

/-- A translator has resolved the root of a program whose assigned variables are declared.  For
another program it gives what a translator gives that remembers nothing but its temporaries.
If no number of a node has gone into temporaries in both programs, that is the text of a new
translator with the numbers of the temporaries pushed up. -/
theorem resolve_next {source source' : String} {t t' : Tree} (parsed : Tree.parse source = .ok t)
    (parsed' : Tree.parse source' = .ok t') {config : Config}
    (declared : ∀ x ∈ t.assigned, config.declarations.contains x) {root root' : NodeId}
    (top : t.root = some root) (top' : t'.root = some root') :
    let fresh : Translator := ⟨.ofConfig config⟩
    let used : Translator := (fresh.resolve t root).2.2
    ∃ text text', (fresh.resolve t' root').1 = .ok text ∧ (used.resolve t' root').1 = .ok text'
      ∧ ((⟨used.state.afresh⟩ : Translator).resolve t' root').1 = .ok text'
      ∧ ((∀ e ∈ (fresh.resolve t' root').2.2.state.temporaries,
          used.state.temporary? e.node = none) →
        Text.Renumbered t' config.tempStem (fun type n => n + used.state.made type) text text') := by
  intro fresh used
  have wf := Tree.wellFormed_of_parsed parsed
  have wf' := Tree.wellFormed_of_parsed parsed'
  have raw' := Tree.raw_of_parse parsed'
  obtain ⟨ended, eq, last, block, -⟩ := wf.root
  obtain rfl : root = ended := Option.some.inj (top.symm.trans eq)
  obtain ⟨ended', eq', last', block', free'⟩ := wf'.root
  obtain rfl : root' = ended' := Option.some.inj (top'.symm.trans eq')
  have lt' := Nat.lt_of_succ_le (Nat.le_of_eq last')
  have rests : used.state.Rests config := rests_resolveWithin wf (Tree.raw_of_parse parsed) declared
    (Nat.lt_of_succ_le (Nat.le_of_eq last)) block
  have recalls : used.state.afresh.Recalls used.state :=
    ⟨⟨rfl, rests.scope, rests.outer, nofun⟩, rests.pending, rfl, rfl⟩
  have pushed : ∀ L : Likeness, State.Pushed L used.state (.ofConfig config) used.state := by
    intro L
    refine ⟨⟨rests.config, rests.scope, rests.outer, nofun⟩, State.numbered_ofConfig config,
      rests.numbered, fun type => (Nat.zero_add _).symm, fun i new => ?_, ?_⟩
    · rw [new]
      exact .none
    · rw [rests.pending]
      exact .nil
  obtain ⟨text', text'', again, next, same⟩ := prints_of_simulation wf' raw' lt' block' free'.up
    ⟨fun _ _ => trivial, fun _ _ _ _ => trivial⟩ (State.recalling _) (fun _ => trivial) recalls
  obtain rfl : text' = text'' := same
  obtain ⟨text, first⟩ := (block_returns block' (w := ⟨t', .ofConfig config⟩) rfl t'.size).1
  refine ⟨text, text', first, next, again, fun apart L spelt names => ?_⟩
  have stem : (resolveWithin (t'.size + 1) root' ⟨t', .ofConfig config⟩).2.state.config = config :=
    ((steady_resolveWithin wf' (t'.size + 1) lt').leads ⟨t', .ofConfig config⟩ rfl
      raw'.lawful).grows.config
  obtain ⟨_, _, first', next', prints⟩ := prints_of_simulation wf' raw' lt' block' free'.up spelt
    (State.pushing used.state _ (by rw [stem]; exact names) apart) (fun _ => trivial) (pushed L)
  obtain rfl := Except.ok.inj (first.symm.trans first')
  obtain rfl := Except.ok.inj (next.symm.trans next')
  exact prints

/-- The extents go into temporaries in both programs, at nodes 2 and 3: the second has the
next number. -/
theorem resolve_next_sizes : ∃ t t', Tree.parse "x = f(size(A))\n" = .ok t
    ∧ Tree.parse "y = g(1, size(B))\n" = .ok t' ∧ t.root = some 5 ∧ t'.root = some 6
    ∧ (∀ x ∈ t.assigned, Config.matrices.declarations.contains x)
    ∧ let fresh : Translator := ⟨.ofConfig .matrices⟩
      let used : Translator := (fresh.resolve t 5).2.2
      let text := "urowvec _aux_urowvec_1 = \x7bB.n_rows, B.n_cols\x7d ;\ny = g(1, _aux_urowvec_1) ;"
      let text' := "urowvec _aux_urowvec_2 = \x7bB.n_rows, B.n_cols\x7d ;\ny = g(1, _aux_urowvec_2) ;"
      (∀ e ∈ (fresh.resolve t' 6).2.2.state.temporaries, used.state.temporary? e.node = none)
        ∧ (fresh.resolve t' 6).1 = .ok text ∧ (used.resolve t' 6).1 = .ok text'
        ∧ ((⟨used.state.afresh⟩ : Translator).resolve t' 6).1 = .ok text'
        ∧ Text.Renumbered t' "_aux" (fun type n => n + used.state.made type) text text' := by
  have parses : ∃ t t', Tree.parse "x = f(size(A))\n" = .ok t
      ∧ Tree.parse "y = g(1, size(B))\n" = .ok t' ∧ t.root = some 5 ∧ t'.root = some 6
      ∧ t.assigned = ["x"]
      ∧ let fresh : Translator := ⟨.ofConfig .matrices⟩
        let used : Translator := (fresh.resolve t 5).2.2
        (∀ e ∈ (fresh.resolve t' 6).2.2.state.temporaries, used.state.temporary? e.node = none)
          ∧ (fresh.resolve t' 6).1
            = .ok "urowvec _aux_urowvec_1 = \x7bB.n_rows, B.n_cols\x7d ;\ny = g(1, _aux_urowvec_1) ;"
          ∧ (used.resolve t' 6).1
            = .ok "urowvec _aux_urowvec_2 = \x7bB.n_rows, B.n_cols\x7d ;\ny = g(1, _aux_urowvec_2) ;" :=
    ⟨_, _, by cbv, by cbv, by cbv, by cbv, by cbv, by decide +kernel, by decide +kernel,
      by decide +kernel⟩
  obtain ⟨t, t', run, run', top, top', names, apart, first, next⟩ := parses
  have declared : ∀ x ∈ t.assigned, Config.matrices.declarations.contains x := by
    rw [names]
    decide
  obtain ⟨text, text', first', next', again, renumbered⟩ := resolve_next run run' declared top top'
  obtain rfl := Except.ok.inj (first.symm.trans first')
  obtain rfl := Except.ok.inj (next.symm.trans next')
  exact ⟨t, t', run, run', top, top', declared, apart, first, next, again, renumbered apart⟩

/-- The argument of the second program has the number of that of the first one, and is taken
for it.  No other numbers turn what a new translator gives into that. -/
theorem resolve_next_not : ∃ t t', Tree.parse "x = f(size(A))\n" = .ok t
    ∧ Tree.parse "y = f(size(B))\n" = .ok t' ∧ t.root = some 5 ∧ t'.root = some 5
    ∧ (∀ x ∈ t.assigned ++ t'.assigned, Config.matrices.declarations.contains x)
    ∧ let fresh : Translator := ⟨.ofConfig .matrices⟩
      let used : Translator := (fresh.resolve t 5).2.2
      let text := "urowvec _aux_urowvec_1 = \x7bB.n_rows, B.n_cols\x7d ;\ny = f(_aux_urowvec_1) ;"
      let text' := "urowvec _aux_urowvec_1 = \x7bA.n_rows, A.n_cols\x7d ;\ny = f(_aux_urowvec_1) ;"
      (fresh.resolve t' 5).1 = .ok text ∧ (used.resolve t' 5).1 = .ok text'
        ∧ ∀ new, ¬Text.Renumbered t' "_aux" new text text' := by
  have parses : ∃ t t', Tree.parse "x = f(size(A))\n" = .ok t
      ∧ Tree.parse "y = f(size(B))\n" = .ok t' ∧ t.root = some 5 ∧ t'.root = some 5
      ∧ t.assigned = ["x"] ∧ t'.assigned = ["y"] ∧ t'.identifiers = ["y", "f", "size", "B"]
      ∧ let fresh : Translator := ⟨.ofConfig .matrices⟩
        let used : Translator := (fresh.resolve t 5).2.2
        (fresh.resolve t' 5).1
            = .ok "urowvec _aux_urowvec_1 = \x7bB.n_rows, B.n_cols\x7d ;\ny = f(_aux_urowvec_1) ;"
          ∧ (used.resolve t' 5).1
            = .ok "urowvec _aux_urowvec_1 = \x7bA.n_rows, A.n_cols\x7d ;\ny = f(_aux_urowvec_1) ;" :=
    ⟨_, _, by cbv, by cbv, by cbv, by cbv, by cbv, by cbv, by cbv, by decide +kernel,
      by decide +kernel⟩
  obtain ⟨t, t', run, run', top, top', names, names', words, first, next⟩ := parses
  refine ⟨t, t', run, run', top, top', ?declared, first, next, fun new renumbered => ?other⟩
  case declared =>
    rw [names, names']
    decide
  case other =>
    have apart : ∀ x ∈ t'.identifiers, Apart "_aux" x := by
      rw [words]
      decide
    have distinct : ∀ x ∈ t'.identifiers, Distinct "_aux" x := fun x mem => (apart x mem).distinct
    have matrix : "B" ∈ t'.identifiers := by
      rw [words]
      decide
    exact absurd (renumbered.mem_words (Tree.raw_of_parse run') rfl distinct (distinct "B" matrix)
      (by decide +kernel)) (by decide +kernel)

end Translator

end MatrixScript
