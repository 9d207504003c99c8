/-
# `BuiltinRule.Extent` — sizes

`size` and `length` read the extents of an array.  Where the whole size of a
matrix is needed as a value it goes into a temporary; an assignment of it to
a variable is redirected to a rule of its own, and several destinations get
one extent each.
-/
import MatrixScript.Rule.Assignment

namespace MatrixScript.BuiltinRule

open Rule

/-- Members that hold the extents, by axis. -/
def extents : List String := ["n_rows", "n_cols", "n_slices"]

/-- The member of a literal one-based axis. -/
def extentOfAxis? (axis : Int) : Option String :=
  if 1 ≤ axis then extents[(axis - 1).toNat]? else none

/-- An argument as the owner of a member. -/
def receiver (o : Operand) : String :=
  if o.node.category == .var || o.node.category == .get || o.node.category == .paren then o.text
  else "(" ++ o.text ++ ")"

/-- Members of the first axes; there are no more than three. -/
def extentsOf (axes : Nat) : Except Error (List String) :=
  if axes ≤ extents.length then .ok (extents.take axes) else .error .malformedTree

/-- Extents of an array in braces. -/
def extentList (owner : String) (members : List String) : String :=
  "\x7b" ++ Text.joined ", " (members.map fun e => owner ++ "." ++ e) ++ "\x7d"

/-! ## `size` as a value -/

/-- The node is what a plain variable is assigned. -/
def isAssignedToVariable (s : Site) : Bool :=
  s.parent?.any fun p =>
    p.category == .assign && p.children.head?.any fun d => (s.tree.node d).category == .var

/-- The size of an array of so many axes. -/
def sizeOfAxes (x : Operand) (axes : Nat) : Rule := fun s => do
  let d : Datatype := ⟨.rowvec, .uword⟩
  let list := extentList (receiver x) (← extentsOf axes)
  if isAssignedToVariable s then s.typed d (.fixed list) [.redirect .size]
  else if s.parentCategory? == some .statement then s.typed d (.fixed ("urowvec(" ++ list ++ ")"))
  else s.typed d (.fixed (s.state.temporaryName s.id d)) [.hoist s.id list d]

/-- `size` with one argument of known type. -/
def sizeOf (x : Operand) : Rule := fun s =>
  match x.shape with
  | .colvec | .rowvec => s.typed (.scalar .uword) (.fixed (receiver x ++ ".n_elem"))
  | .matrix => sizeOfAxes x 2 s
  | .cube => sizeOfAxes x 3 s
  | _ => s.keep s.verbatim

/-- `size` along an axis. -/
def sizeAlong (x axis : Operand) : Rule := fun s =>
  s.typed (.scalar .uword)
    (match axis.node.intValue?.bind extentOfAxis? with
      | some extent => .fixed (receiver x ++ "." ++ extent)
      | none => s.verbatim)

/-- The type of the argument does not say what the size is, or several
destinations take it apart. -/
def isOpaque (x : Operand) (s : Site) : Bool :=
  !x.datatype.isKnown || s.parentCategory? == some .assigns

def size : Rule := fun s =>
  match s.operands with
  | [x] => if isOpaque x s then s.keep s.verbatim else sizeOf x s
  | [x, axis] => if isOpaque x s then s.keep s.verbatim else sizeAlong x axis s
  | _ => s.refuse

/-! ## `size` in assignments -/

/-- Shape of the first argument of a call. -/
def firstArgumentShape (s : Site) (call : Operand) : Option Shape :=
  call.node.children.head?.map fun a => (s.tree.node a).shape

/-- The whole size of a matrix or a cube in a variable: an array is filled and wrapped. -/
def assignSize : Rule := fun s =>
  match s.operands with
  | destination :: value :: _ => do
      checkDestinations [destination]
      let axes := if firstArgumentShape s value == some .cube then "3" else "2"
      let x := destination.text
      s.keep
        (.fixed ("uword _" ++ x ++ " [] = " ++ value.text ++ " ;\n" ++ x ++ " = urowvec(_" ++ x
          ++ ", " ++ axes ++ ", false) ;"))
        (binding destination value.datatype)
  | _ => .error .malformedTree

/-- The text by which a node can be read several times, and the effect that it
takes: a variable is read as it is, anything else goes into a temporary. -/
def readable (s : Site) (id : NodeId) (d : Datatype) : String × List Effect :=
  let n := s.tree.node id
  if n.category == .var then (n.text, [])
  else (s.state.temporaryName id d, [.hoist id n.text d])

/-- One extent for each of two or three destinations. -/
def assignsSize : Rule := fun s =>
  match splitLast? s.operands with
  | none => .error .malformedTree
  | some (destinations, call) =>
      match call.node.children with
      | [] => .error (.unsupported "size without arguments")
      | argument :: _ =>
          if destinations.length ≠ 2 ∧ destinations.length ≠ 3 then
            .error (.unsupported
              ("size assigned to " ++ toString destinations.length ++ " destinations"))
          else do
            checkDestinations destinations
            let (source, hoisting) := readable s argument (s.tree.node argument).datatype
            let members ← extentsOf destinations.length
            let lines := (destinations.zip members).map fun (destination, extent) =>
              destination.text ++ " = " ++ source ++ "." ++ extent ++ " ;"
            s.keep (.fixed (Text.joined "\n" lines))
              (hoisting ++ destinations.map fun o => .destination o.id (.scalar .uword))

/-! ## `length` -/

def length : Rule := fun s =>
  match s.operands with
  | [x] =>
      if x.node.category == .var then s.typed (.scalar .uword) (.format "%(0)s.n_elem")
      else s.typed (.scalar .uword) (.format "m2cpp::length(%(0)s)") [.use .length]
  | _ => s.refuse

/-! ## `min` and `max` with their index -/

/-- Type of a node once destinations are given theirs. -/
def retyped (given : List (NodeId × Datatype)) (id : NodeId) (d : Datatype) : Datatype :=
  given.foldl (fun d (destination, new) => if destination = id then new else d) d

/-- The extremum and its place, by the member function that gives both. -/
def extremumWithIndex (name : String) (value index argument : Operand) (s : Site) :
    Except Error Outcome :=
  let given := [(value.id, Datatype.scalar argument.cls), (index.id, Datatype.scalar .uword)]
  let (source, hoisting) :=
    readable s argument.id (retyped given argument.id argument.datatype)
  s.keep (.fixed (value.text ++ " = " ++ source ++ "." ++ name ++ "(" ++ index.text ++ ") ;"))
    (given.map (fun (id, d) => .destination id d) ++ hoisting)

/-- `[v, i] = min(x)` -/
def assignsExtremum : Rule := fun s =>
  match splitLast? s.operands with
  | none => .error .malformedTree
  | some (destinations, call) =>
      let name := call.node.name
      match destinations with
      | [value, index] => do
          checkDestinations destinations
          match call.node.children with
          | [] => .error (.unsupported (name ++ " without arguments"))
          | [id] =>
              let argument : Operand := ⟨id, s.tree.node id, (s.tree.node id).text⟩
              if argument.numeric then extremumWithIndex name value index argument s
              else
                s.keep (.fixed
                  ("[" ++ value.text ++ ", " ++ index.text ++ "] = " ++ call.text ++ " ;"))
          | _ =>
              .error (.unsupported
                (name ++ " with several arguments assigned to two destinations"))
      | _ =>
          .error (.unsupported
            (name ++ " assigned to " ++ toString destinations.length ++ " destinations"))

end MatrixScript.BuiltinRule
