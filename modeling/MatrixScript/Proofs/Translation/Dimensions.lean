/-
# `Proofs.Translation.Dimensions` — as many dimensions as the type has

The type of zeros and ones is chosen by what the destination is known to be, and the dimensions
that are passed by how the call is written (`BuiltinRule.fillDimensions`).  The two agree but for
one kind of calls: the value of a variable that is known to be a vector, with three arguments, or
with two of which none is written `1` (`Resolving.dimensions_count`).
-/
import MatrixScript.Proofs.Translation.Destination

namespace MatrixScript

open Cpp Resolving Workspace

variable {t : Tree}

/-- Dimensions that an array of the shape has. -/
def Shape.dimensions : Shape → Nat
  | .colvec | .rowvec => 1
  | .matrix => 2
  | .cube => 3
  | .unknown | .scalar => 0

theorem Shape.dimensions_of_isVector {shape : Shape} (vector : shape.isVector) : shape.dimensions = 1 := by
  cases shape <;> first | rfl | cases vector

/-! ## What the rule passes -/

namespace BuiltinRule

open Rule

variable {s : Site} {shape : Shape}

/-- The constructor of filled arrays of a type. -/
def constructor (name : String) (d : Datatype) : String := "arma::" ++ name ++ "<" ++ d.typeName ++ ">"

/-- Where a vector of dimensions is read: a variable as it is, anything else as its temporary. -/
def dimensionSource (s : Site) (dims : Operand) : String :=
  if dims.node.category == .var then dims.text else s.state.temporaryName dims.id dims.datatype

/-- The first elements of a vector, one for each dimension of the shape. -/
def elementsOf (dims : String) (shape : Shape) : List String :=
  (List.range shape.dimensions).map fun k => dims ++ "(" ++ toString k ++ ")"

/-- The dimensions that are passed out of those that are given one by one. -/
def numbersOf (s : Site) (shape : Shape) : List String :=
  match s.operands with
  | [rows, columns] =>
      if !shape.isVector then s.texts
      else if rows.node.isInt 1 then [columns.text]
      else if columns.node.isInt 1 then [rows.text]
      else s.texts
  | _ => s.texts

/-- The dimensions that are passed for zeros and ones in a shape. -/
def fillDimensions (s : Site) (shape : Shape) : List String :=
  match s.operands with
  | [] => []
  | dims :: _ => if isDimensionVector s then elementsOf (dimensionSource s dims) shape else numbersOf s shape

/-- What goes into a temporary for zeros and ones. -/
def fillEffects (s : Site) : List Effect :=
  match s.operands with
  | [] => []
  | dims :: _ =>
      if isDimensionVector s && dims.node.category != .var then
        [.hoist dims.id dims.node.text dims.datatype]
      else []

/-- A vector is asked for, and the call has more dimensions than one. -/
structure Crowded (s : Site) : Prop where
  hint : ∃ d ∈ knownHint? s, d.shape.isVector
  more : s.arity = 3 ∨ ∃ rows columns, s.operands = [rows, columns]
    ∧ rows.node.isInt 1 = false ∧ columns.node.isInt 1 = false

theorem fillShape_of_hint {d : Datatype} (hint : d ∈ knownHint? s) (vector : d.shape.isVector) :
    fillShape s = d.shape := by
  unfold fillShape
  rw [show knownHint? s = some d from hint]
  exact if_pos vector

/-- If no vector is asked for, the shape is that of the arguments. -/
theorem fillShape_of_arguments (other : ¬∃ d ∈ knownHint? s, d.shape.isVector) :
    ∃ hint, fillShape s = fillShapeOfArguments hint s := by
  unfold fillShape
  cases known : knownHint? s with
  | none => exact ⟨none, rfl⟩
  | some d => exact ⟨some d.shape, if_neg fun vector => other ⟨d, known, vector⟩⟩

/-- Zeros and ones are arrays. -/
theorem dimensions_fillShape : 0 < (fillShape s).dimensions := by
  by_cases asked : ∃ d ∈ knownHint? s, d.shape.isVector
  case pos =>
    obtain ⟨d, hint, vector⟩ := asked
    rw [fillShape_of_hint hint vector, Shape.dimensions_of_isVector vector]
    exact Nat.one_pos
  case neg =>
    obtain ⟨hint, shape⟩ := fillShape_of_arguments asked
    rw [shape, fillShapeOfArguments]
    split
    · split
      · split <;> decide
      · decide
    · split
      · decide
      · split <;> decide
    · decide

/-- A call of zeros or ones with arguments has one, two or three of them. -/
theorem operands_cases (some : s.operands ≠ []) (few : s.arity ≤ 3) :
    (∃ a, s.operands = [a]) ∨ (∃ a b, s.operands = [a, b]) ∨ ∃ a b c, s.operands = [a, b, c] := by
  have pos : 0 < s.operands.length := List.length_pos_iff.mpr some
  rw [Site.arity] at few
  obtain one | two | three : s.operands.length = 1 ∨ s.operands.length = 2 ∨ s.operands.length = 3 := by omega
  · exact .inl (List.length_eq_one_iff.mp one)
  · exact .inr (.inl (List.length_eq_two.mp two))
  · exact .inr (.inr (List.length_eq_three.mp three))

section

variable {a b c : Operand}

theorem fillDimensions_one (one : s.operands = [a]) : fillDimensions s shape
    = if isDimensionVector s then elementsOf (dimensionSource s a) shape else [a.text] := by
  rw [fillDimensions, numbersOf, Site.texts, one]
  rfl

theorem fillDimensions_two (two : s.operands = [a, b]) : fillDimensions s shape
    = if !shape.isVector then [a.text, b.text]
      else if a.node.isInt 1 then [b.text]
      else if b.node.isInt 1 then [a.text]
      else [a.text, b.text] := by
  rw [fillDimensions, numbersOf, isDimensionVector, Site.texts, two]
  exact if_neg Bool.false_ne_true

theorem fillDimensions_three (three : s.operands = [a, b, c]) :
    fillDimensions s shape = [a.text, b.text, c.text] := by
  rw [fillDimensions, numbersOf, isDimensionVector, Site.texts, three]
  exact if_neg Bool.false_ne_true

end

/-- For a vector one dimension is passed, unless the call has more and none of two is a literal one. -/
theorem length_fillDimensions_vector (some : s.operands ≠ []) (few : s.arity ≤ 3) (vector : shape.isVector) :
    (fillDimensions s shape).length = 1 ↔ ¬(s.arity = 3 ∨ ∃ rows columns, s.operands = [rows, columns]
      ∧ rows.node.isInt 1 = false ∧ columns.node.isInt 1 = false) := by
  rw [Site.arity]
  obtain ⟨a, one⟩ | ⟨a, b, two⟩ | ⟨a, b, c, three⟩ := operands_cases some few
  · rw [fillDimensions_one one, one]
    refine iff_of_true ?_ (by simp)
    split
    · rw [elementsOf, List.length_map, List.length_range, Shape.dimensions_of_isVector vector]
    · rfl
  · rw [fillDimensions_two two, two, vector, Bool.not_true, if_neg Bool.false_ne_true]
    cases rows : a.node.isInt 1 with
    | true => simp [rows]
    | false => cases columns : b.node.isInt 1 <;> simp [rows, columns]
  · rw [fillDimensions_three three, three]
    simp

/-- For the shape of the arguments its dimensions are passed. -/
theorem length_fillDimensions_arguments (some : s.operands ≠ []) (few : s.arity ≤ 3) (hint : Option Shape) :
    (fillDimensions s (fillShapeOfArguments hint s)).length = (fillShapeOfArguments hint s).dimensions := by
  obtain ⟨a, one⟩ | ⟨a, b, two⟩ | ⟨a, b, c, three⟩ := operands_cases some few
  · rw [fillDimensions_one one, fillShapeOfArguments, one]
    dsimp only
    cases isDimensionVector s with
    | true => exact (List.length_map _).trans List.length_range
    | false => rfl
  · rw [fillDimensions_two two, fillShapeOfArguments, two]
    dsimp only
    by_cases rows : a.node.isInt 1 = true
    · simp [rows, Shape.isVector, Shape.dimensions]
    · by_cases columns : b.node.isInt 1 = true <;> simp [rows, columns, Shape.isVector, Shape.dimensions]
  · rw [fillDimensions_three three, fillShapeOfArguments, three]
    rfl

/-- Every dimension is an operand as it reads, or an element of the only one, which is read from a
temporary unless it is a variable. -/
theorem mem_fillDimensions {a : String} (mem : a ∈ fillDimensions s shape) :
    (fillEffects s = [] ∧ ∃ o ∈ s.operands, a = o.text ∨ ∃ k : Nat, a = o.text ++ "(" ++ toString k ++ ")")
      ∨ ∃ o ∈ s.operands, fillEffects s = [.hoist o.id o.node.text o.datatype]
        ∧ ∃ k : Nat, a = s.state.temporaryName o.id o.datatype ++ "(" ++ toString k ++ ")" := by
  unfold fillDimensions at mem
  unfold fillEffects
  split at mem
  case h_1 => cases mem
  case h_2 first rest operands =>
  rw [operands]
  split at mem
  case isTrue vector =>
    obtain ⟨k, -, rfl⟩ := List.mem_map.mp mem
    rw [vector, Bool.true_and, dimensionSource]
    by_cases var : first.node.category = .var
    · refine .inl ⟨by simp [var], first, .head _, .inr ⟨k, ?_⟩⟩
      rw [var]
      rfl
    · have other : (first.node.category == .var) = false := beq_eq_false_iff_ne.mpr var
      refine .inr ⟨first, .head _, by simp [var], k, ?_⟩
      rw [other, if_neg Bool.false_ne_true]
  case isFalse numbers =>
    rw [Bool.not_eq_true _ |>.mp numbers, Bool.false_and, if_neg Bool.false_ne_true, ← operands]
    refine .inl ⟨rfl, ?_⟩
    have given : ∀ a ∈ s.texts, ∃ o ∈ s.operands, a = o.text := fun a mem => by
      obtain ⟨o, there, rfl⟩ := List.mem_map.mp mem
      exact ⟨o, there, rfl⟩
    have reads : a ∈ s.texts := by
      unfold numbersOf at mem
      split at mem
      case h_2 => exact mem
      case h_1 rows columns both =>
      have texts : s.texts = [rows.text, columns.text] := by rw [Site.texts, both]; rfl
      rw [texts] at mem ⊢
      split at mem
      · exact mem
      · split at mem
        · exact List.mem_pair.mpr (.inr (List.mem_singleton.mp mem))
        · split at mem
          · exact List.mem_pair.mpr (.inl (List.mem_singleton.mp mem))
          · exact mem
    obtain ⟨o, there, eq⟩ := given a reads
    exact ⟨o, there, .inl eq⟩

/-- There are as many dimensions as the shape has, unless a vector is asked for that is given more. -/
theorem length_fillDimensions (some : s.operands ≠ []) (few : s.arity ≤ 3) :
    (fillDimensions s (fillShape s)).length = (fillShape s).dimensions ↔ ¬Crowded s := by
  by_cases asked : ∃ d ∈ knownHint? s, d.shape.isVector
  case pos =>
    obtain ⟨d, hint, vector⟩ := asked
    rw [fillShape_of_hint hint vector, Shape.dimensions_of_isVector vector,
      length_fillDimensions_vector some few vector]
    exact not_congr ⟨fun more => ⟨⟨d, hint, vector⟩, more⟩, Crowded.more⟩
  case neg =>
    obtain ⟨hint, shape⟩ := fillShape_of_arguments asked
    rw [shape]
    exact iff_of_true (length_fillDimensions_arguments some few hint) fun crowded => asked crowded.hint

theorem dimensionsOf_eq {dims : String} (array : 0 < shape.dimensions) :
    dimensionsOf dims shape = Text.joined ", " (elementsOf dims shape) := by
  have one : Nat.toDigits 10 1 = ['1'] := rfl
  have two : Nat.toDigits 10 2 = ['2'] := rfl
  apply String.toList_injective
  cases shape with
  | unknown | scalar => cases array
  | colvec | rowvec | matrix | cube =>
    simp [dimensionsOf, elementsOf, Shape.dimensions, List.range_succ, Text.joined, one, two]

section

variable {o : Outcome} {f : String} {d : Datatype}

theorem filledByVector_eq {dims : Operand} (array : 0 < d.shape.dimensions)
    (ok : filledByVector f d dims s = .ok o) : o.typing = .of d
      ∧ o.effects = (if dims.node.category == .var then []
        else [.hoist dims.id dims.node.text dims.datatype])
      ∧ s.written o = call f (elementsOf (dimensionSource s dims) d.shape) := by
  unfold filledByVector at ok
  rw [dimensionSource]
  by_cases var : (dims.node.category == .var) = true
  case pos =>
    rw [if_pos var] at ok
    cases ok
    rw [if_pos var, if_pos var]
    exact ⟨rfl, rfl, congrArg (f ++ "(" ++ · ++ ")") (dimensionsOf_eq array)⟩
  case neg =>
    rw [if_neg var] at ok
    cases ok
    rw [if_neg var, if_neg var]
    exact ⟨rfl, rfl, congrArg (f ++ "(" ++ · ++ ")") (dimensionsOf_eq array)⟩

theorem filledByNumbers_eq (plain : '%' ∉ f.toList) (ok : filledByNumbers f d s = .ok o) :
    o.typing = .of d ∧ o.effects = [] ∧ s.written o = call f (numbersOf s d.shape) := by
  have whole : Template.render { s.node with typing := .of d } s.texts (.join (f ++ "(") ", " ")")
      = call f s.texts := rfl
  -- one of two dimensions is put into the parentheses
  have one : ∀ (a b : String) (node : Node),
      Template.render node [a, b] (.format (f ++ "(%(0)s)")) = call f [a]
        ∧ Template.render node [a, b] (.format (f ++ "(%(1)s)")) = call f [b] := by
    intro a b node
    have front : '%' ∉ (f ++ "(").toList := by simp [plain]
    have first : f ++ "(%(0)s)" = f ++ "(" ++ ("%(0)s" ++ ")") := by
      rw [String.append_assoc]
      rfl
    have second : f ++ "(%(1)s)" = f ++ "(" ++ ("%(1)s" ++ ")") := by
      rw [String.append_assoc]
      rfl
    constructor
    · rw [first, Template.render_format_append front, Template.render_operand, Template.render_fixed (by decide)]
      exact String.append_assoc.symm
    · rw [second, Template.render_format_append front, Template.render_second, Template.render_fixed (by decide)]
      exact String.append_assoc.symm
  unfold filledByNumbers at ok
  dsimp only at ok
  split at ok
  case h_2 other =>
    cases ok
    refine ⟨rfl, rfl, ?_⟩
    unfold numbersOf
    split
    · exact absurd ‹_› (other _ _)
    · exact whole
  case h_1 rows columns operands =>
  rw [numbersOf, operands]
  dsimp only
  have texts : s.texts = [rows.text, columns.text] := by rw [Site.texts, operands]; rfl
  split at ok
  case isTrue matrix =>
    cases ok
    rw [if_pos matrix]
    exact ⟨rfl, rfl, whole⟩
  case isFalse vector =>
  rw [if_neg vector]
  split at ok
  case isTrue row =>
    cases ok
    rw [if_pos row]
    refine ⟨rfl, rfl, ?_⟩
    rw [Site.written, texts]
    exact (one _ _ _).2
  case isFalse =>
  rw [if_neg ‹_›]
  split at ok
  case isTrue column =>
    cases ok
    rw [if_pos column]
    refine ⟨rfl, rfl, ?_⟩
    rw [Site.written, texts]
    exact (one _ _ _).1
  case isFalse =>
    cases ok
    rw [if_neg ‹_›]
    exact ⟨rfl, rfl, whole⟩

end

/-- An element is a phrase. -/
theorem phrase_element {I : Idiom} {dims : String} (phrase : Phrase I false dims) (k : Nat) :
    Phrase I false (dims ++ "(" ++ toString k ++ ")") :=
  have opened : Piece I false ⟨[], .apart⟩ (dims ++ "(") ⟨[')'], .apart⟩ := Piece.put phrase "(" rfl
  ((opened.say (phrase_nat k)).put ")" (r := ⟨[], .apart⟩) rfl).loosen

/-- Zeros and ones of one to three arguments are a call of the constructor of their type. -/
theorem filled_eq (word : ∀ c ∈ s.name.toList, Token.isWordRest c) (some : s.operands ≠ []) (few : s.arity ≤ 3)
    {o : Outcome} (ok : filled s = .ok o) : o.typing = .of ⟨fillShape s, fillClass s⟩
      ∧ o.effects = fillEffects s
      ∧ s.written o = call (constructor s.name ⟨fillShape s, fillClass s⟩) (fillDimensions s (fillShape s)) := by
  have plain : '%' ∉ (constructor s.name ⟨fillShape s, fillClass s⟩).toList := by
    simp [constructor, no_percent word, no_percent (word_typeName _)]
  unfold filled at ok
  split at ok
  case h_1 none => exact absurd none some
  case h_2 first rest operands =>
  rw [if_neg (Nat.not_lt.mpr few)] at ok
  dsimp only at ok
  rw [fillEffects, fillDimensions, operands]
  dsimp only
  split at ok
  case isTrue vector =>
    obtain ⟨typing, effects, written⟩ := filledByVector_eq dimensions_fillShape ok
    rw [if_pos vector, vector]
    refine ⟨typing, effects.trans ?_, written⟩
    by_cases var : first.node.category = .var <;> simp [var]
  case isFalse numbers =>
    obtain ⟨typing, effects, written⟩ := filledByNumbers_eq plain ok
    rw [if_neg numbers, Bool.not_eq_true _ |>.mp numbers]
    exact ⟨typing, effects, written⟩

end BuiltinRule

/-! ## What the destination asks for -/

namespace Tree

/-- The node is the value that a variable of this name is assigned. -/
def AssignedTo (t : Tree) (id : NodeId) (x : String) : Prop :=
  ∃ p c, t.parent? id = some p ∧ t.category p = .assign ∧ t.children p = [c, id]
    ∧ t.category c = .var ∧ (t.node c).name = x

/-- The node is the value of a variable that is known to be a vector, and has three arguments, or
two that are no literal ones. -/
structure Crowded (t : Tree) (lookup : String → Option Datatype) (id : NodeId) : Prop where
  hint : ∃ x d, t.AssignedTo id x ∧ lookup x = some d ∧ d.isKnown ∧ d.shape.isVector
  more : (t.children id).length = 3 ∨ ∃ rows columns, t.children id = [rows, columns]
    ∧ (t.node rows).isInt 1 = false ∧ (t.node columns).isInt 1 = false

theorem isInt_of_bare {t' : Tree} (same : t'.bare = t.bare) (c : NodeId) (k : Int) :
    (t'.node c).isInt k = (t.node c).isInt k := by
  rw [Node.isInt, intValue?_of_bare same, Node.isInt]

/-- An assignment has its destination and its value. -/
theorem WellFormed.children_assign (wf : t.WellFormed) {p : NodeId} (assign : t.category p = .assign) :
    ∃ c value, t.children p = [c, value] := by
  have admits := (wf.shaped p (lt_size_of_category assign nofun)).children
  rw [assign] at admits
  match t.children p, admits with
  | [c, value], _ => exact ⟨c, value, rfl⟩

end Tree

namespace Resolving.Applied

variable (wf : t.WellFormed) {id : NodeId} {w w' : Workspace} {text : String} {s : Site} {o : Outcome}
  (h : Applied t id w text w' s o) (value : (t.category id).isDestination = false)
include wf h value

/-- What is asked for is what is known of the variable that the value is assigned to. -/
theorem assignmentHint?_eq_some {d : Datatype} : BuiltinRule.assignmentHint? s = some d
    ↔ ∃ x, t.AssignedTo id x ∧ w.state.lookup x = some d := by
  have quiet : s.node.suggest = none := h.lawful.hints s.id (by
    rwa [Tree.category_of_bare h.bare, h.here])
  unfold BuiltinRule.assignmentHint? Site.parent?
  rw [quiet, h.here, Tree.parent?_of_bare h.bare]
  cases up : t.parent? id with
  | none =>
    refine iff_of_false nofun ?_
    rintro ⟨x, ⟨p, c, up', -⟩, -⟩
    cases up.symm.trans up'
  | some p =>
    have category : ∀ i, (s.tree.node i).category = t.category i := congrFun (Tree.category_of_bare h.bare)
    have mem := (wf.heldBy_of_parent? up).mem_children
    rw [Option.map_some, Tree.position?_of_bare h.bare]
    dsimp only
    rw [category]
    by_cases assign : t.category p = .assign
    case neg =>
      rw [show (t.category p == .assign) = false from beq_eq_false_iff_ne.mpr assign, Bool.false_and,
        if_neg Bool.false_ne_true]
      refine iff_of_false nofun ?_
      rintro ⟨x, ⟨p', c, up', assign', -⟩, -⟩
      obtain rfl := Option.some.inj (up.symm.trans up')
      exact assign assign'
    case pos =>
    obtain ⟨c, v, ids⟩ := wf.children_assign assign
    have apart := wf.nodup_children p
    rw [ids] at apart mem
    have other : c ≠ v := by simpa using apart
    have place : t.position? id = (if id = v then some 1 else some 0) := by
      rw [Tree.position?, up]
      dsimp only
      rw [ids]
      rcases List.mem_pair.mp mem with rfl | rfl
      · simp [List.findIdx?_cons, other]
      · simp [List.findIdx?_cons, other]
    have children : (s.tree.node p).children = [c, v] := (congrFun (Tree.children_of_bare h.bare) p).trans ids
    rw [assign, place, children]
    dsimp only
    by_cases last : id = v
    case neg =>
      rw [if_neg last, if_neg (by decide)]
      refine iff_of_false nofun ?_
      rintro ⟨x, ⟨p', c', up', -, ids', -⟩, -⟩
      obtain rfl := Option.some.inj (up.symm.trans up')
      rw [ids] at ids'
      cases ids'
      exact last rfl
    case pos =>
      rw [if_pos last, if_pos (by decide), category, Tree.name_of_bare h.bare, h.lookup]
      constructor
      · intro found
        split at found
        case isTrue var =>
          exact ⟨_, ⟨p, c, up, assign, by rw [ids, last], beq_iff_eq.mp var, rfl⟩, found⟩
        case isFalse => cases found
      · rintro ⟨x, ⟨p', c', up', -, ids', var, rfl⟩, found⟩
        obtain rfl := Option.some.inj (up.symm.trans up')
        rw [ids] at ids'
        cases ids'
        rw [var]
        exact found

/-- The rule is given too many dimensions exactly if the program says so. -/
theorem crowded_iff : BuiltinRule.Crowded s ↔ t.Crowded w.state.lookup id := by
  have asked : (∃ d ∈ BuiltinRule.knownHint? s, d.shape.isVector)
      ↔ ∃ x d, t.AssignedTo id x ∧ w.state.lookup x = some d ∧ d.isKnown ∧ d.shape.isVector := by
    constructor
    · rintro ⟨d, hint, vector⟩
      obtain ⟨hint, known⟩ := Option.mem_filter_iff.mp hint
      obtain ⟨x, assigned, found⟩ := (h.assignmentHint?_eq_some wf value).mp hint
      exact ⟨x, d, assigned, found, known, vector⟩
    · rintro ⟨x, d, assigned, found, known, vector⟩
      have hint := (h.assignmentHint?_eq_some wf value).mpr ⟨x, assigned, found⟩
      exact ⟨d, Option.mem_filter_iff.mpr ⟨hint, known⟩, vector⟩
  have more : (s.arity = 3 ∨ ∃ rows columns, s.operands = [rows, columns]
        ∧ rows.node.isInt 1 = false ∧ columns.node.isInt 1 = false)
      ↔ ((t.children id).length = 3 ∨ ∃ rows columns, t.children id = [rows, columns]
        ∧ (t.node rows).isInt 1 = false ∧ (t.node columns).isInt 1 = false) := by
    rw [Site.arity, h.operands, List.length_map]
    refine or_congr_right ⟨?_, ?_⟩
    · rintro ⟨rows, columns, operands, first, second⟩
      obtain ⟨a, _, ids, rfl, rest⟩ := List.map_eq_cons_iff.mp operands
      obtain ⟨b, _, rfl, rfl, last⟩ := List.map_eq_cons_iff.mp rest
      obtain rfl := List.map_eq_nil_iff.mp last
      rw [Site.operand, Tree.isInt_of_bare h.bare] at first second
      exact ⟨a, b, ids, first, second⟩
    · rintro ⟨a, b, ids, first, second⟩
      refine ⟨s.operand a, s.operand b, by rw [ids]; rfl, ?_, ?_⟩
      · rwa [Site.operand, Tree.isInt_of_bare h.bare]
      · rwa [Site.operand, Tree.isInt_of_bare h.bare]
  exact ⟨fun crowded => ⟨asked.mp crowded.hint, more.mp crowded.more⟩,
    fun crowded => ⟨asked.mpr crowded.hint, more.mpr crowded.more⟩⟩

end Resolving.Applied

/-! ## Calls -/

namespace Resolving

/-- Zeros and ones are a call of the constructor of their type, which is that of an array.  The call
has as many dimensions as the type, unless a vector is asked for that is given more than one.  Each
of them is an argument as it reads then, or an element of it. -/
theorem dimensions_count {source : String} (parsed : Tree.parse source = .ok t) {depth : Nat} {id : NodeId}
    {w : Workspace} (same : w.tree.bare = t.bare) (lawful : w.tree.Lawful) (enough : Enough t depth id)
    (get : t.category id = .get) (named : (t.node id).name = "zeros" ∨ (t.node id).name = "ones")
    (some : t.children id ≠ []) (few : (t.children id).length ≤ 3) : ∃ text w' dims,
      resolveWithin depth id w = (.ok text, w')
      ∧ text = call (BuiltinRule.constructor (t.node id).name (w'.tree.node id).datatype) dims
      ∧ 0 < (w'.tree.node id).shape.dimensions
      ∧ (dims.length = (w'.tree.node id).shape.dimensions ↔ ¬t.Crowded w.state.lookup id)
      ∧ (∀ a ∈ dims, ∃ c ∈ t.children id, a = (w'.tree.node c).text
        ∨ ∃ k : Nat, a = (w'.tree.node c).text ++ "(" ++ toString k ++ ")")
      ∧ (Worded t w → Single w.state.config.tempStem → ∀ a ∈ dims, Single a) := by
  have wf := Tree.wellFormed_of_parsed parsed
  have spelt := (Tree.raw_of_parse parsed).spelt_words
  have lt : id < t.size := Tree.lt_size_of_category get nofun
  have inline : (t.category id).isInline := by rw [get]; rfl
  have value : (t.category id).isDestination = false := by rw [get]; rfl
  obtain ⟨text, w', run⟩ := exists_text_of_enough wf inline enough same lawful
  obtain ⟨s, o, applied⟩ := exists_applied wf lt (by rw [get]; nofun) (by rw [get]; nofun) same lawful run
  have ok : BuiltinRule.filled s = .ok o := by
    rcases named with zeros | ones
    · exact applied.builtin get (by rw [zeros]; rfl) (b := .zeros) rfl
    · exact applied.builtin get (by rw [ones]; rfl) (b := .ones) rfl
  have word : ∀ c ∈ s.name.toList, Token.isWordRest c := by
    rw [applied.name]
    exact spelt.plain id (by rw [get]; rfl)
  have operands := applied.operands
  have filled : s.operands ≠ [] := by rw [operands]; simpa using some
  have arity : s.arity ≤ 3 := by rwa [Site.arity, operands, List.length_map]
  obtain ⟨typing, effects, written⟩ := BuiltinRule.filled_eq word filled arity ok
  have datatype : (w'.tree.node id).datatype = ⟨BuiltinRule.fillShape s, BuiltinRule.fillClass s⟩ :=
    congrArg Typing.datatype ((applied.typing lt).trans typing)
  have shape : (w'.tree.node id).shape = BuiltinRule.fillShape s := congrArg Datatype.shape datatype
  have origin : ∀ a ∈ BuiltinRule.fillDimensions s (BuiltinRule.fillShape s), ∃ c ∈ t.children id,
      a = (w'.tree.node c).text ∨ ∃ k : Nat, a = (w'.tree.node c).text ++ "(" ++ toString k ++ ")" := by
    have other : ∀ c ∈ t.children id, c ≠ id := fun c mem eq =>
      wf.not_below_child mem (eq ▸ t.below_self id)
    intro a mem
    rcases BuiltinRule.mem_fillDimensions mem with ⟨quiet, o', given, reads⟩ | ⟨o', given, hoisted, k, rfl⟩
    · rw [operands] at given
      obtain ⟨c, child, rfl⟩ := List.mem_map.mp given
      have kept := applied.kept (fun node x d mem => by rw [effects, quiet] at mem; cases mem) (other c child)
      refine ⟨c, child, ?_⟩
      rwa [kept]
    · rw [operands] at given
      obtain ⟨c, child, rfl⟩ := List.mem_map.mp given
      refine ⟨c, child, .inr ⟨k, ?_⟩⟩
      rw [applied.text_hoisted (other c child) (wf.bound id c child) (effects.trans hoisted) nofun]
      rfl
  refine ⟨text, w', BuiltinRule.fillDimensions s (BuiltinRule.fillShape s), run, ?_, ?_, ?_, origin, ?_⟩
  · rw [applied.text, written, datatype, applied.name]
  · rw [shape]
    exact BuiltinRule.dimensions_fillShape
  · rw [shape, BuiltinRule.length_fillDimensions filled arity, applied.crowded_iff wf value]
  · intro worded stem a mem
    obtain ⟨c, child, reads⟩ := origin a mem
    have last := (voiced_resolveWithin wf spelt depth lt w worded).1
    have leads := (steady_resolveWithin wf depth lt).leads w same lawful
    rw [run] at last leads
    have stem' : Single w'.state.idiom.stem := by
      show Single w'.state.config.tempStem
      rwa [leads.grows.config]
    have phrase := last.phrase_argument wf get child
    rcases reads with rfl | ⟨k, rfl⟩
    · exact phrase.single stem'
    · exact (BuiltinRule.phrase_element phrase k).single stem'

/-- A matrix with the extents of another: the dimensions are read from a temporary. -/
theorem dimensions_count_size : ∃ t w' dims, Tree.parse "x = zeros(size(A))\n" = .ok t
    ∧ let w : Workspace := ⟨t, .ofConfig { declarations := ⟨[("A", ⟨.matrix, .float⟩)]⟩ }⟩
      resolveWithin 7 1 w = (.ok "arma::zeros<mat>(_aux_urowvec_1(0), _aux_urowvec_1(1))", w')
        ∧ call "arma::zeros<mat>" dims = "arma::zeros<mat>(_aux_urowvec_1(0), _aux_urowvec_1(1))"
        ∧ ¬t.Crowded w.state.lookup 1 ∧ dims.length = 2 ∧ ∀ a ∈ dims, Single a := by
  have visits : ∃ t, Tree.parse "x = zeros(size(A))\n" = .ok t ∧ t.size = 6 ∧ t.category 1 = .get
      ∧ (t.node 1).name = "zeros" ∧ t.children 1 = [2]
      ∧ (let r := resolveWithin 7 1 ⟨t, .ofConfig { declarations := ⟨[("A", ⟨.matrix, .float⟩)]⟩ }⟩
        r.1.toOption = some "arma::zeros<mat>(_aux_urowvec_1(0), _aux_urowvec_1(1))"
          ∧ (r.2.tree.node 1).datatype = ⟨.matrix, .float⟩) := ⟨_, by cbv, by decide +kernel⟩
  obtain ⟨t, parsed, size, get, name, ids, reads, type⟩ := visits
  have wf := Tree.wellFormed_of_parsed parsed
  have enough : Enough t (6 + 1) 1 := size ▸ enough_of_lt wf (size ▸ (by decide : 1 < 6))
  have few : ¬t.Crowded (State.ofConfig { declarations := ⟨[("A", ⟨.matrix, .float⟩)]⟩ }).lookup 1 := by
    rintro ⟨-, more | ⟨rows, columns, two, -⟩⟩
    · rw [ids] at more
      cases more
    · rw [ids] at two
      cases two
  obtain ⟨text, w', dims, run, eq, -, counts, -, single⟩ := dimensions_count parsed
    (w := ⟨t, .ofConfig { declarations := ⟨[("A", ⟨.matrix, .float⟩)]⟩ }⟩) rfl
    (Tree.raw_of_parse parsed).lawful enough get (.inl name) (by rw [ids]; exact List.cons_ne_nil _ _) (by rw [ids]; decide)
  rw [run] at reads type
  obtain rfl := Option.some.inj reads
  rw [name, type] at eq
  have shape : (w'.tree.node 1).shape = .matrix := congrArg Datatype.shape type
  rw [shape] at counts
  exact ⟨t, w', dims, parsed, run, eq.symm, few, counts.mpr few,
    single ((Tree.raw_of_parse parsed).worded wf (by decide)) (by decide : Single ({} : Config).tempStem)⟩

/-- A vector that is given two dimensions, neither of them a literal one. -/
theorem dimensions_count_not : ∃ t, Tree.parse "x = zeros(n, m)\n" = .ok t
    ∧ t.category 1 = .get ∧ (t.node 1).name = "zeros" ∧ (t.children 1).length = 2
    ∧ (let after := (⟨.ofConfig { declarations := ⟨[("x", ⟨.colvec, .float⟩)]⟩ }⟩ : Translator).translate t
      after.1.statements = ["x = arma::zeros<vec>(n, m) ;"] ∧ (after.2.1.node 1).shape = .colvec) :=
  ⟨_, by cbv, by decide +kernel⟩

end Resolving

end MatrixScript
