/-
# `Rule.Literal` — numbers, strings, variables, matrix literals

Literals have the type that they are written in and a variable the type that
is known of it.  A matrix literal of plain elements is an initialiser, and
one with arrays among its elements is put together by joins, row by row.
-/
import MatrixScript.Rule

namespace MatrixScript.Rule

/-! ## Literals and variables -/

def int : Rule := fun s => s.typed (.scalar .int) (.format "%(value)s")

def float : Rule := fun s => s.typed (.scalar .float) (.format "%(value)s")

/-- An imaginary number without the marks at its end. -/
def magnitude (value : String) : String :=
  String.ofList (value.toList.reverse.dropWhile (fun c => c == 'i' || c == 'j')).reverse

def imag : Rule := fun s =>
  s.typed (.scalar .complex)
    (.fixed ("cx_double(0, " ++ magnitude (s.node.value.getD "") ++ ")"))

/-- Characters of a string literal of the target language. -/
def escaped : List Char → List Char
  | [] => []
  | c :: rest =>
      if c = '\\' ∨ c = '\x22' then '\\' :: c :: escaped rest else c :: escaped rest

def string : Rule := fun s =>
  s.typed .string
    (.fixed (String.ofList ('\x22' :: escaped (s.node.value.getD "").toList ++ ['\x22'])))

def var : Rule := fun s =>
  match s.lookup s.name with
  | some d => s.typed d (.format "%(name)s")
  | none => s.keep (.format "%(name)s")

/-! ## Rows -/

/-- Calls of a joining function, nested to the left. -/
def joins (function first : String) (rest : List String) : String :=
  rest.foldl (fun acc t => function ++ "(" ++ acc ++ ", " ++ t ++ ")") first

/-- One row of a matrix literal. -/
def row : Rule := fun s =>
  match s.operands with
  | [] => s.keep (.fixed "")
  | [element] => s.withTyping element.node.typing (.format "%(0)s")
  | first :: rest =>
      let d := Datatype.joinAll s.types
      if s.operands.all (·.shape == .scalar) then
        s.typed (d.withShape .rowvec) (.join "" ", " "")
      else
        let flat := s.operands.all fun e => e.shape == .scalar || e.shape == .rowvec
        let text := Template.fixed (joins "arma::join_rows" first.text (rest.map (·.text)))
        if d.isKnown then s.typed (d.withShape (if flat then .rowvec else .matrix)) text
        else s.keep text

/-! ## Matrices -/

/-- Text in braces. -/
def braced (text : String) : String := "\x7b" ++ text ++ "\x7d"

/-- Elements of a row of the literal. -/
def elementsOf (s : Site) (o : Operand) : List Node := o.node.children.map s.tree.node

/-- Number of elements of a row. -/
def widthOf (o : Operand) : Nat := o.node.children.length

/-- Every element of the row is one value, or of unknown shape, and no range. -/
def isPlain (s : Site) (o : Operand) : Bool :=
  (elementsOf s o).all fun e =>
    (e.shape == .scalar || e.shape == .unknown) && e.category != .range

/-- An initialiser of elements of unknown type. -/
def untypedInitialiser : List String → String
  | [single] => braced single
  | texts => braced (Text.joined ", " (texts.map braced))

/-- An initialiser of a known type. -/
def initialiser (d : Datatype) (text : String) : String :=
  "arma::" ++ d.typeName ++ "(" ++ braced text ++ ")"

/-- A matrix of plain elements whose join is the known type `d`. -/
def plainMatrix (d : Datatype) (s : Site) : Except Error Outcome :=
  match s.operands with
  | [] => .error .malformedTree
  | [only] =>
      if widthOf only = 1 then s.typed (d.withShape .scalar) (.format "%(0)s")
      else
        let d := d.withShape .rowvec
        s.typed d (.fixed (initialiser d only.text))
  | first :: rest =>
      if s.operands.all (widthOf · = 1) then
        let d := d.withShape .colvec
        s.typed d (.fixed (initialiser d (Text.joined ", " s.texts)))
      else
        let d := d.withShape .matrix
        s.typed d (.fixed (initialiser d (Text.joined ", " (s.texts.map braced))))
          (if rest.any (widthOf · ≠ widthOf first) then
            [.report s.id .shapeMismatch "matrix literal rows of different length"]
          else [])

/-- A row as an operand of a join. -/
def stackedRow (s : Site) (o : Operand) : String :=
  if isPlain s o && decide (1 < widthOf o) then initialiser ⟨.rowvec, o.cls⟩ o.text else o.text

/-- Shape of rows on top of each other. -/
def stackedShape (rows : List Operand) : Shape :=
  match rows with
  | [only] => only.shape
  | _ => if rows.all fun r => r.shape == .scalar || r.shape == .colvec then .colvec else .matrix

/-- Typing of rows on top of each other; a single row of unknown type hands on
whether it counts as a number. -/
def stackedTyping (d : Datatype) (s : Site) : Typing :=
  if d.isKnown then .of (d.withShape (stackedShape s.operands))
  else
    match s.operands with
    | [only] => { s.seed with numeric := only.numeric }
    | _ => s.seed

/-- A matrix with arrays among its elements. -/
def stackedMatrix (d : Datatype) (s : Site) : Except Error Outcome :=
  match s.operands with
  | [] => .error .malformedTree
  | first :: rest =>
      s.withTyping (stackedTyping d s)
        (.fixed (joins "arma::join_cols" (stackedRow s first) (rest.map (stackedRow s))))

/-- A matrix literal. -/
def matrix : Rule := fun s =>
  let d := Datatype.joinAll s.types
  if s.operands.isEmpty then s.keep (.fixed (braced ""))
  else if d.cls == .text then
    s.typed .string (.fixed ("std::string(" ++ Text.joined " + " s.texts ++ ")"))
  else if s.operands.all (isPlain s) then
    if d.isKnown then plainMatrix d s else s.keep (.fixed (untypedInitialiser s.texts))
  else stackedMatrix d s

end MatrixScript.Rule
