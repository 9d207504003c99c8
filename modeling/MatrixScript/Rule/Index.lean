/-
# `Rule.Index` — ranges, whole axes, `end`, and subscripts

Scripts count from one and the emitted code from zero.  A range that is the
argument of a known variable becomes a span of positions, a colon the whole
axis, `end` the extent of the axis of its place, and every other argument is
shifted by one.
-/
import MatrixScript.Rule

namespace MatrixScript.Rule

/-- Zero-based form of a one-based position; an integer literal is folded. -/
def zeroBased (o : Operand) : String :=
  match o.node.intValue? with
  | some v => toString (Node.predecessor v)
  | none => o.text ++ "-1"

/-- The variable that the node is an argument of. -/
def subscripted? (s : Site) : Option String :=
  match s.parent? with
  | some p => if p.category.isSubscript then some p.name else none
  | none => none

/-! ## Ranges -/

/-- The range is an argument of a variable that is known to be numeric. -/
def indexesVariable (s : Site) : Bool :=
  ((subscripted? s).bind s.lookup).any (·.isNumeric)

/-- A range inside a subscript: positions, counted from zero. -/
def rangeOfPositions (s : Site) : Except Error Outcome :=
  let d : Datatype := ⟨.colvec, .uword⟩
  match s.operands with
  | [start, stop] =>
      s.typed d (.fixed ("arma::span(" ++ zeroBased start ++ ", " ++ zeroBased stop ++ ")"))
  | [start, step, stop] =>
      s.typed d
        (.fixed ("m2cpp::uspan(" ++ zeroBased start ++ ", " ++ step.text ++ ", "
          ++ zeroBased stop ++ ")"))
        [.use .uspan]
  | _ => s.typed d (.join "" ":" "")

/-- The range is assigned to a destination that is known to be numeric. -/
def assignedToNumeric (s : Site) : Bool :=
  match s.group? with
  | some g => g.category == .assign && g.children.head?.any fun d => (s.tree.node d).numeric
  | none => false

/-- Class of the elements of a range of values. -/
def rangeClass (s : Site) : StorageClass :=
  let bounds := Datatype.joinAll s.types
  if bounds.isKnown && decide (.uword < bounds.cls) then .float
  else if (s.parentCategory?.any (·.isSubscript)) then .int
  else if assignedToNumeric s then .uword
  else .int

/-- A range of values. -/
def rangeOfValues (s : Site) : Except Error Outcome :=
  let d : Datatype := ⟨.colvec, rangeClass s⟩
  match s.operands with
  | [_, _] => s.typed d (.format "m2cpp::span<%(type)s>(%(0)s, %(1)s)") [.use .span]
  | [_, step, _] =>
      if step.node.category.isNumber then
        s.typed d (.format "m2cpp::uspan<%(type)s>(%(0)s, %(1)s, %(2)s)") [.use .uspan]
      else s.typed d (.format "m2cpp::span<%(type)s>(%(0)s, %(1)s, %(2)s)") [.use .span]
  | _ => s.typed d (.join "" ":" "")

def range : Rule := fun s => if indexesVariable s then rangeOfPositions s else rangeOfValues s

/-! ## Axes -/

/-- Member that holds the extent of an axis. -/
def axisExtent? : Nat → Option String
  | 0 => some "n_rows"
  | 1 => some "n_cols"
  | 2 => some "n_slices"
  | _ => none

/-- A colon: every position along its axis. -/
def all : Rule := fun s =>
  let d : Datatype := ⟨.colvec, .uword⟩
  match subscripted? s, (s.tree.position? s.id).bind axisExtent? with
  | some name, some extent =>
      s.typed d (.fixed ("m2cpp::uspan(0, " ++ name ++ "." ++ extent ++ "-1)")) [.use .uspan]
  | _, _ => s.typed d (.fixed "span::all")

/-- A subscript that gives `end` its meaning: a destination, or a known variable. -/
def givesExtent (s : Site) (n : Node) : Bool :=
  n.category == .set || (n.category == .get && s.isVariable n.name)

/-- The nearest such subscript among ancestors, and the one of its arguments
that the search came through; blocks are not left. -/
def extentOwner? (s : Site) (argument : NodeId) : List NodeId → Option (NodeId × NodeId)
  | [] => none
  | a :: rest =>
      if givesExtent s (s.tree.node a) then some (a, argument)
      else if (s.tree.node a).category == .block then none
      else extentOwner? s a rest

/-- `end`: the extent of the subscripted variable along the axis of its place.
Calls between the two are passed over. -/
def last : Rule := fun s =>
  match extentOwner? s s.id (s.tree.ancestors s.id) with
  | none =>
      s.keep (.fixed "end")
        [.report s.id .unsupportedConstruct
          "superfluous end-statement outside of an indexing context"]
  | some (owner, argument) =>
      let d := Datatype.scalar .uword
      match (s.tree.position? argument).bind axisExtent? with
      | some extent => s.typed d (.fixed ((s.tree.node owner).name ++ "." ++ extent))
      | none =>
          s.typed d (.fixed "end")
            [.report s.id .unsupportedConstruct
              "end statement in subscript argument beyond the third"]

/-! ## Subscripts -/

/-- The argument selects one position along its axis. -/
def isPoint (o : Operand) : Bool :=
  !(o.node.category == .range || o.node.category == .all)
    && (o.shape == .scalar || o.shape == .unknown)

/-- Text of an argument; ranges and colons count from zero already. -/
def indexText (o : Operand) : String :=
  if o.node.category == .range || o.node.category == .all then o.text else zeroBased o

/-- Shape of what arguments select from a variable; `points` says which of them
select one position. -/
def selectedShape (whole : Shape) (points : List Bool) : Shape :=
  if points.all id then .scalar
  else
    match whole, points with
    | .colvec, [_] => .colvec
    | .rowvec, [_] => .rowvec
    | _, [_] => .colvec
    | .matrix, [false, true] => .colvec
    | .matrix, [true, false] => .rowvec
    | shape, _ => shape

/-- `A(i, j)` of a known variable, else a call. -/
def subscript : Rule := fun s =>
  match s.lookup s.name with
  | none => s.keep s.verbatim
  | some d =>
      let text := s.name ++ "(" ++ Text.joined ", " (s.operands.map indexText) ++ ")"
      if d.isKnown then
        s.typed (d.withShape (selectedShape d.shape (s.operands.map isPoint))) (.fixed text)
      else s.keep (.fixed text)

end MatrixScript.Rule
