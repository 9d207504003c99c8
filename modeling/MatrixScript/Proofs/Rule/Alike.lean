/-
# `Proofs.Rule.Alike` — rules answer alike at sites that are alike

Two sites are alike (`Site.Alike`) when they are about the same node of the same
program, when what is inferred about the children and about the node's reach is
the same, and when the texts there are alike in the sense of some `Likeness`.
Whatever else is remembered or left in the tree may differ.  Every rule then
gives the same typing at both, the same effects up to the texts that they carry,
and texts that are alike (`Agrees`): no rule reads anything else.

Only two things are left to the caller.  A rule that hoists names the temporary
before it is made, so the texts are alike if the names are.  And `toc` reports a
clock that was not started, so a site where it was started may be quieter.
-/
import MatrixScript.Proofs.Rule.Answer
import MatrixScript.Proofs.Text.Likeness
import MatrixScript.Proofs.Translation.Bare
import MatrixScript.BuiltinRule.Extent

namespace MatrixScript

/-! ## What a program spells -/

/-- The names and the strings of a tree are among those that a likeness allows. -/
structure Tree.Spelt (t : Tree) (L : Likeness) : Prop where
  plain : ∀ i, (t.category i).isNamed → L.plain (t.node i).name
  quotable : ∀ i s, t.category i = .str → (t.node i).value = some s → L.quotable s

/-- The name of a node of the tree. -/
def Tree.Names (t : Tree) (x : String) : Prop := ∃ i, (t.category i).isNamed ∧ (t.node i).name = x

theorem Tree.Spelt.of_names {t : Tree} {L : Likeness} (h : t.Spelt L) {x : String}
    (named : t.Names x) : L.plain x := by
  obtain ⟨i, category, rfl⟩ := named
  exact h.plain i category

theorem Tree.Spelt.of_bare {t t' : Tree} {L : Likeness} (same : t'.bare = t.bare)
    (h : t.Spelt L) : t'.Spelt L := by
  refine ⟨fun i named => ?_, fun i x string value => ?_⟩
  · rw [category_of_bare same] at named
    rw [name_of_bare same]
    exact h.plain i named
  · rw [category_of_bare same] at string
    rw [value_of_bare same] at value
    exact h.quotable i x string value

/-- What stands for a node before it is resolved. -/
theorem Tree.Spelt.shows_label {t : Tree} {L : Likeness} (h : t.Spelt L) (wf : t.WellFormed)
    (i : NodeId) : L.Shows (t.node i).label (t.node i).label := by
  unfold Node.label
  split
  case isTrue => exact Likeness.shows_categoryName _
  case isFalse named =>
    have lt : i < t.size := by
      by_contra out
      exact named (by rw [node_of_size_le (Nat.le_of_not_lt out)]; rfl)
    exact .name (h.plain i ((wf.shaped i lt).name.mp named))

/-- The message is put together from fixed pieces and names of the tree. -/
def Error.Speaks (e : Error) (t : Tree) : Prop :=
  ∀ L : Likeness, t.Spelt L → L.Shows e.message e.message

theorem Error.Speaks.of_bare {e : Error} {t t' : Tree} (same : t'.bare = t.bare)
    (h : e.Speaks t) : e.Speaks t' := fun L spelt => h L (spelt.of_bare same.symm)

/-- The node itself, a child, or a child of a child. -/
def Tree.Reaches (t : Tree) (id i : NodeId) : Prop :=
  i = id ∨ i ∈ t.children id ∨ ∃ c ∈ t.children id, i ∈ t.children c

/-! ## Sites -/

/-- The same child with the same typing, and with texts that are alike. -/
structure Operand.Alike (L : Likeness) (o o' : Operand) : Prop where
  id : o'.id = o.id
  bare : o'.node.bare = o.node.bare
  typing : o'.node.typing = o.node.typing
  text : L.Shows o.text o'.text
  rendered : L.Shows o.node.text o'.node.text
  /-- a variable is written as its name -/
  named : o.node.category = .var → Builtin.isReserved o.node.name = false →
    o.text = o.node.name ∧ o'.text = o.node.name

namespace Operand.Alike

variable {L : Likeness} {o o' : Operand} (h : o.Alike L o')
include h

theorem field {β : Type} (field : Node → β) (kept : ∀ n : Node, field n.bare = field n) :
    field o'.node = field o.node := by
  rw [← kept, h.bare, kept]

theorem category : o'.node.category = o.node.category := h.field Node.category fun _ => rfl

theorem name : o'.node.name = o.node.name := h.field Node.name fun _ => rfl

theorem children : o'.node.children = o.node.children := h.field Node.children fun _ => rfl

theorem intValue? : o'.node.intValue? = o.node.intValue? := h.field Node.intValue? fun _ => rfl

theorem isInt (v : Int) : o'.node.isInt v = o.node.isInt v := h.field (·.isInt v) fun _ => rfl

theorem datatype : o'.datatype = o.datatype := congrArg Typing.datatype h.typing

theorem shape : o'.shape = o.shape := congrArg (·.datatype.shape) h.typing

theorem cls : o'.cls = o.cls := congrArg (·.datatype.cls) h.typing

theorem numeric : o'.numeric = o.numeric := congrArg Typing.numeric h.typing

theorem isPlaceholder : o'.isPlaceholder = o.isPlaceholder := by
  rw [Operand.isPlaceholder, h.category, h.children, Operand.isPlaceholder]

end Operand.Alike

namespace Operand

variable {L : Likeness} {os os' : List Operand}

/-- What is the same of operands that are alike is the same of all of them. -/
theorem map_eq_of_alike (alike : List.Forall₂ (Operand.Alike L) os os') {β : Type}
    {f g : Operand → β} (same : ∀ o ∈ os, ∀ o', o.Alike L o' → g o' = f o) :
    os'.map g = os.map f := by
  induction alike with
  | nil => rfl
  | cons first _ ih =>
    rw [List.map_cons, List.map_cons, same _ List.mem_cons_self _ first,
      ih fun o mem => same o (List.mem_cons_of_mem _ mem)]

theorem all_eq_of_alike (alike : List.Forall₂ (Operand.Alike L) os os') {p q : Operand → Bool}
    (same : ∀ o ∈ os, ∀ o', o.Alike L o' → q o' = p o) : os'.all q = os.all p := by
  have all : ∀ (os : List Operand) (p : Operand → Bool), os.all p = (os.map p).all fun b => b := by
    intro os p
    rw [List.all_map]
    rfl
  rw [all, map_eq_of_alike alike same, ← all]

theorem any_eq_of_alike (alike : List.Forall₂ (Operand.Alike L) os os') {p q : Operand → Bool}
    (same : ∀ o ∈ os, ∀ o', o.Alike L o' → q o' = p o) : os'.any q = os.any p := by
  have any : ∀ (os : List Operand) (p : Operand → Bool), os.any p = (os.map p).any fun b => b := by
    intro os p
    rw [List.any_map]
    rfl
  rw [any, map_eq_of_alike alike same, ← any]

theorem texts_alike (alike : List.Forall₂ (Operand.Alike L) os os') :
    List.Forall₂ L.Shows (os.map (·.text)) (os'.map (·.text)) :=
  List.forall₂_map_left_iff.mpr
    (List.forall₂_map_right_iff.mpr (alike.imp fun _ _ alike => alike.text))

end Operand

/-- Sites of the same node of the same program, with the same typing to start from and the
same types of variables. -/
structure Site.Akin (L : Likeness) (s s' : Site) : Prop where
  id : s'.id = s.id
  bare : s'.tree.bare = s.tree.bare
  sound : s.Sound
  wellFormed : s.tree.WellFormed
  spelt : s.tree.Spelt L
  ids : s.operands.map (·.id) = s.tree.children s.id
  seed : s'.seed = s.seed
  lookup : ∀ x, s'.lookup x = s.lookup x

/-- Sites that look the same to every rule but that of a function. -/
structure Site.Alike (L : Likeness) (quieter : Prop) (s s' : Site) : Prop extends
    Site.Akin L s s' where
  redirect : s'.node.redirect = s.node.redirect
  /-- only an assignment to a variable is redirected -/
  redirected : ∀ b, s.node.redirect = some b →
    b = .size ∧ s.node.category = .assign ∧ s.operands.head?.any (·.node.category == .var)
  /-- only a destination has a hint -/
  suggest : s.node.category.isDestination = false →
    s.node.suggest = none ∧ s'.node.suggest = none
  operands : List.Forall₂ (Operand.Alike L) s.operands s'.operands
  /-- children of the children -/
  reach : ∀ o ∈ s.operands, ∀ c ∈ o.node.children,
    (s'.tree.node c).typing = (s.tree.node c).typing
      ∧ L.Shows (s.tree.node c).text (s'.tree.node c).text
  /-- a range sees whether its destination is a number -/
  target : s.node.category = .range → Rule.assignedToNumeric s' = Rule.assignedToNumeric s
  clock : s'.state.clock.started = s.state.clock.started
    ∨ (quieter ∧ s.state.clock.started = false)

/-- A destination of the assignment at the site. -/
def Site.Takes (s : Site) (o : Operand) : Prop :=
  (s.node.category = .assign ∨ s.node.category = .assigns) ∧ o ∈ s.operands.dropLast

/-! ## Answers -/

/-- The same effect, up to the text that it carries. -/
inductive Effect.Alike (L : Likeness) (s : Site) : Effect → Effect → Prop
  | report {node : NodeId} {problem : Problem} {message : String} : s.tree.Reaches s.id node →
      Alike L s (.report node problem message) (.report node problem message)
  | use {i : Include} : Alike L s (.use i) (.use i)
  | record {o : Operand} {d : Datatype} : s.Takes o → o.node.category = .var →
      Alike L s (.record o.node.name d) (.record o.node.name d)
  | destination {o : Operand} {d : Datatype} : s.Takes o →
      Alike L s (.destination o.id d) (.destination o.id d)
  | redirect : BuiltinRule.isAssignedToVariable s →
      Alike L s (.redirect .size) (.redirect .size)
  | hoist {node : NodeId} {text text' : String} {d : Datatype} : s.tree.Reaches s.id node →
      L.Shows text text' → Alike L s (.hoist node text d) (.hoist node text' d)
  | tic : Alike L s .tic .tic
  | toc : Alike L s .toc .toc

/-- The same effects in the same order; the second list may lack reports. -/
inductive Effect.AllAlike (L : Likeness) (quieter : Prop) (s : Site) :
    List Effect → List Effect → Prop
  | nil : AllAlike L quieter s [] []
  | cons {e e' : Effect} {es es' : List Effect} : e.Alike L s e' → AllAlike L quieter s es es' →
      AllAlike L quieter s (e :: es) (e' :: es')
  | drop {problem : Problem} {message : String} {es es' : List Effect} :
      quieter → AllAlike L quieter s es es' →
      AllAlike L quieter s (.report s.id problem message :: es) es'

theorem Effect.AllAlike.alike_self {L : Likeness} {s : Site} :
    ∀ {es : List Effect}, AllAlike L False s es es → ∀ e ∈ es, e.Alike L s e
  | [], _ => nofun
  | _ :: _, .cons first rest => List.forall_mem_cons.mpr ⟨first, rest.alike_self⟩
  | _ :: _, .drop quiet _ => quiet.elim

/-- Text of an outcome at the site. -/
def Site.written (s : Site) (o : Outcome) : String :=
  o.template.render { s.node with typing := o.typing } s.texts

/-- What an effect hoists. -/
def Effect.hoisted? : Effect → Option (NodeId × Datatype)
  | .hoist node _ d => some (node, d)
  | _ => none

/-- What the effects hoist first gets names that are alike; no rule hoists twice. -/
def Site.NamesAlike (L : Likeness) (s s' : Site) (effects : List Effect) : Prop :=
  ∀ node d, effects.findSome? Effect.hoisted? = some (node, d) →
    L.Shows (s.state.temporaryName node d) (s'.state.temporaryName node d)

/-- Both fail in the same way, which tells no text, or both give the same typing, effects
that are alike and, where the temporaries are named alike, texts that `R` relates. -/
inductive Agrees (L : Likeness) (quieter : Prop) (s s' : Site) (R : String → String → Prop) :
    Except Error Outcome → Except Error Outcome → Prop
  | fails {e : Error} : e.Speaks s.tree → Agrees L quieter s s' R (.error e) (.error e)
  | answers {o o' : Outcome} : o'.typing = o.typing →
      Effect.AllAlike L quieter s o.effects o'.effects →
      (Site.NamesAlike L s s' o.effects → R (s.written o) (s'.written o')) →
      Agrees L quieter s s' R (.ok o) (.ok o')

/-! ## What sites that are alike share -/

namespace Site.Akin

variable {L : Likeness} {s s' : Site} (h : s.Akin L s')
include h

theorem bareNode (i : NodeId) : (s'.tree.node i).bare = (s.tree.node i).bare :=
  Tree.node_of_bare h.bare i

theorem field {β : Type} (field : Node → β) (kept : ∀ n : Node, field n.bare = field n) :
    field s'.node = field s.node := by
  rw [Site.node, h.id]
  exact Tree.field_of_bare h.bare field kept s.id

theorem category : s'.node.category = s.node.category := h.field Node.category fun _ => rfl

theorem name : s'.name = s.name := h.field Node.name fun _ => rfl

theorem value : s'.node.value = s.node.value := h.field Node.value fun _ => rfl

theorem label : s'.node.label = s.node.label := h.field Node.label fun _ => rfl

theorem isVariable (x : String) : s'.isVariable x = s.isVariable x := by
  rw [Site.isVariable, h.lookup, Site.isVariable]

/-- The parents are the same nodes up to what is filled in. -/
theorem parent? : s'.parent?.map Node.bare = s.parent?.map Node.bare := by
  rw [Site.parent?, h.id, Tree.parent?_of_bare h.bare, Site.parent?]
  cases s.tree.parent? s.id with
  | none => rfl
  | some p => exact congrArg some (h.bareNode p)

theorem parentCategory? : s'.parentCategory? = s.parentCategory? := by
  have bare := congrArg (Option.map Node.category) h.parent?
  rw [Option.map_map, Option.map_map] at bare
  exact bare

theorem group? : s'.group?.map Node.bare = s.group?.map Node.bare := by
  rw [Site.group?, h.id, Tree.group?_of_bare h.bare, Site.group?]
  cases s.tree.group? s.id with
  | none => rfl
  | some g => exact congrArg some (h.bareNode g)

theorem plain (named : s.node.category.isNamed) : L.plain s.name := h.spelt.plain s.id named

end Site.Akin

namespace Site.Alike

variable {L : Likeness} {quieter : Prop} {s s' : Site} (h : s.Alike L quieter s')
include h

theorem types : s'.types = s.types := Operand.map_eq_of_alike h.operands fun _ _ _ alike => alike.datatype

theorem arity : s'.arity = s.arity := h.operands.length_eq.symm

theorem texts : List.Forall₂ L.Shows s.texts s'.texts := Operand.texts_alike h.operands

theorem verbatim : s'.verbatim = s.verbatim := by rw [Site.verbatim, h.name, Site.verbatim]

theorem wrongArity : s'.wrongArity = s.wrongArity := by
  rw [Site.wrongArity, h.id, h.name, h.arity, Site.wrongArity]

end Site.Alike

/-! ## How answers are put together -/

namespace Effect.AllAlike

variable {L : Likeness} {quieter : Prop} {s : Site}

theorem report {problem : Problem} {message : String} :
    AllAlike L quieter s [.report s.id problem message] [.report s.id problem message] :=
  .cons (.report (.inl rfl)) .nil

theorem use {i : Include} : AllAlike L quieter s [.use i] [.use i] := .cons .use .nil

theorem append {es es' fs fs' : List Effect} (h : AllAlike L quieter s es es')
    (h' : AllAlike L quieter s fs fs') : AllAlike L quieter s (es ++ fs) (es' ++ fs') := by
  induction h with
  | nil => exact h'
  | cons first _ ih => exact .cons first ih
  | drop quiet _ ih => exact .drop quiet ih

/-- Either of two lists. -/
theorem ite {b : Prop} [Decidable b] {es es' fs fs' : List Effect}
    (h : AllAlike L quieter s es es') (h' : AllAlike L quieter s fs fs') :
    AllAlike L quieter s (if b then es else fs) (if b then es' else fs') := by
  split
  · exact h
  · exact h'

end Effect.AllAlike

namespace Agrees

variable {L : Likeness} {quieter : Prop} {s s' : Site} {R : String → String → Prop}
  {effects effects' : List Effect} {t t' : Template}

theorem keep (h : s.Alike L quieter s') (alike : Effect.AllAlike L quieter s effects effects')
    (text : Site.NamesAlike L s s' effects →
      R (t.render s.node s.texts) (t'.render s'.node s'.texts)) :
    Agrees L quieter s s' R (s.keep t effects) (s'.keep t' effects') :=
  .answers h.seed alike text

theorem withTyping (typing : Typing) (alike : Effect.AllAlike L quieter s effects effects')
    (text : Site.NamesAlike L s s' effects →
      R (t.render { s.node with typing } s.texts) (t'.render { s'.node with typing } s'.texts)) :
    Agrees L quieter s s' R (s.withTyping typing t effects) (s'.withTyping typing t' effects') :=
  .answers rfl alike text

theorem typed (d : Datatype) (alike : Effect.AllAlike L quieter s effects effects')
    (text : Site.NamesAlike L s s' effects →
      R (t.render { s.node with typing := .of d } s.texts)
        (t'.render { s'.node with typing := .of d } s'.texts)) :
    Agrees L quieter s s' R (s.typed d t effects) (s'.typed d t' effects') :=
  .answers rfl alike text

theorem ite {b : Prop} [Decidable b] {r r' q q' : Except Error Outcome}
    (h : b → Agrees L quieter s s' R r r') (h' : ¬b → Agrees L quieter s s' R q q') :
    Agrees L quieter s s' R (if b then r else q) (if b then r' else q') := by
  split
  · exact h ‹_›
  · exact h' ‹_›

end Agrees

namespace Template

variable {L : Likeness} {n n' : Node} {a b c a' b' c' : String} {ts ts' : List String}

theorem keys_one (first : L.Shows a a') :
    ∀ key ∈ [['0']], KeyAlike L n n' (a :: ts) (a' :: ts') key :=
  List.forall_mem_singleton.mpr ⟨a, a', rfl, rfl, first⟩

theorem keys_two (first : L.Shows a a') (second : L.Shows b b') :
    ∀ key ∈ [['0'], ['1']], KeyAlike L n n' (a :: b :: ts) (a' :: b' :: ts') key :=
  List.forall_mem_cons.mpr ⟨⟨a, a', rfl, rfl, first⟩,
    List.forall_mem_singleton.mpr ⟨b, b', rfl, rfl, second⟩⟩

theorem keys_three (first : L.Shows a a') (second : L.Shows b b') (third : L.Shows c c') :
    ∀ key ∈ [['0'], ['1'], ['2']],
      KeyAlike L n n' (a :: b :: c :: ts) (a' :: b' :: c' :: ts') key :=
  List.forall_mem_cons.mpr ⟨⟨a, a', rfl, rfl, first⟩,
    List.forall_mem_cons.mpr ⟨⟨b, b', rfl, rfl, second⟩,
      List.forall_mem_singleton.mpr ⟨c, c', rfl, rfl, third⟩⟩⟩

end Template

namespace Site.Alike

variable {L : Likeness} {quieter : Prop} {s s' : Site} {n n' : Node}

section

variable (h : s.Alike L quieter s')
include h

theorem shows_between {operator : String}
    (separates : Text.scan .word operator.toList = some .free) :
    L.Shows ((Rule.between operator).render n s.texts)
      ((Rule.between operator).render n' s'.texts) := by
  have inner : L.Shows (Text.joined operator s.texts) (Text.joined operator s'.texts) :=
    Likeness.shows_joined separates h.texts
  exact ((L.opening "" rfl).append inner).putWord "" rfl

/-- A call that goes on behind an opening parenthesis. -/
theorem shows_call {opening : String} (opens : L.like .free opening opening .free) :
    L.Shows ((Template.join opening ", " ")").render n s.texts)
      ((Template.join opening ", " ")").render n' s'.texts) := by
  have inner : L.Shows (Text.joined ", " s.texts) (Text.joined ", " s'.texts) :=
    Likeness.shows_joined rfl h.texts
  exact ((opens.append inner).put ")" rfl).shows

theorem shows_verbatim (named : s.node.category.isNamed) :
    L.Shows (s.verbatim.render n s.texts) (s'.verbatim.render n' s'.texts) := by
  rw [h.verbatim]
  exact h.shows_call ((Likeness.Shows.name (h.plain named)).put "(" rfl)

theorem cons (some : s.operands ≠ []) : ∃ o os o' os', s.operands = o :: os
    ∧ s'.operands = o' :: os' ∧ o.Alike L o' ∧ List.Forall₂ (Operand.Alike L) os os' := by
  obtain ⟨o, os, eq⟩ := List.exists_cons_of_ne_nil some
  have operands := h.operands
  rw [eq] at operands
  generalize eq' : s'.operands = os' at operands
  cases operands with
  | cons first rest => exact ⟨o, os, _, _, eq, rfl, first, rest⟩

omit h in
theorem keys_one {o o' : Operand} {os os' : List Operand} (eq : s.operands = o :: os)
    (eq' : s'.operands = o' :: os') (first : o.Alike L o') :
    ∀ key ∈ [['0']], Template.KeyAlike L n n' s.texts s'.texts key := by
  rw [Site.texts, eq, Site.texts, eq']
  exact Template.keys_one first.text

omit h in
theorem keys_two {a a' b b' : Operand} {os os' : List Operand} (eq : s.operands = a :: b :: os)
    (eq' : s'.operands = a' :: b' :: os') (first : a.Alike L a') (second : b.Alike L b') :
    ∀ key ∈ [['0'], ['1']], Template.KeyAlike L n n' s.texts s'.texts key := by
  rw [Site.texts, eq, Site.texts, eq']
  exact Template.keys_two first.text second.text

omit h in
theorem keys_three {a a' b b' c c' : Operand} {os os' : List Operand}
    (eq : s.operands = a :: b :: c :: os) (eq' : s'.operands = a' :: b' :: c' :: os')
    (first : a.Alike L a') (second : b.Alike L b') (third : c.Alike L c') :
    ∀ key ∈ [['0'], ['1'], ['2']], Template.KeyAlike L n n' s.texts s'.texts key := by
  rw [Site.texts, eq, Site.texts, eq']
  exact Template.keys_three first.text second.text third.text

theorem refuse (named : s.node.category.isNamed) :
    Agrees L quieter s s' L.Shows s.refuse s'.refuse := by
  refine .keep h ?_ fun _ => h.shows_verbatim named
  rw [h.wrongArity]
  exact .report

end

end Site.Alike

end MatrixScript
