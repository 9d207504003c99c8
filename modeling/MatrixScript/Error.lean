/-
# `Error` — why a source, a declaration or a statement fails

One constructor per cause, and the wording in one place (`Error.message`).
Problems that translation can go on with are not errors but diagnostics.
-/

namespace MatrixScript

/-- Why a configuration document cannot be read. -/
inductive DocumentFault where
  /-- the text is not JSON -/
  | malformed
  /-- the text ends too early -/
  | truncated
  /-- the text is JSON with a value that does not fit; a cause of our own is kept -/
  | unfit (cause : Option String)
deriving DecidableEq, Repr

namespace DocumentFault

/-- What is wrong with the document. -/
def message : DocumentFault → String
  | .malformed => "malformed JSON"
  | .truncated => "unexpected end of the document"
  | .unfit (some cause) => cause
  | .unfit none => "a value of the wrong kind"

end DocumentFault

/-- Causes of failure. -/
inductive Error where
  /-- no token starts at a byte position -/
  | lexer (position : Nat) (reason : String)
  /-- the tokens form no program -/
  | parser (reason : String)
  /-- a built-in name stands where a variable is needed -/
  | reservedName (name : String)
  /-- no rule translates the construct -/
  | unsupported (reason : String)
  /-- a declaration names no type -/
  | invalidDeclaration (reason : String)
  /-- the configuration document cannot be read -/
  | config (fault : DocumentFault)
  /-- a file cannot be read -/
  | io (reason : String)
  /-- an access outside of what there is; no tree of a program leads to one -/
  | malformedTree
deriving DecidableEq, Repr

namespace Error

/-- Wording of an error. -/
def message : Error → String
  | .lexer position reason => "Lexer error at position " ++ toString position ++ ": " ++ reason
  | .parser reason => "Parser error: " ++ reason
  | .reservedName name =>
      "Variable name '" ++ name ++ "' is reserved, please rename the variable"
  | .unsupported reason => "Unsupported construct: " ++ reason
  | .invalidDeclaration reason => "Invalid declaration: " ++ reason
  | .config fault => "Invalid configuration: " ++ fault.message
  | .io reason => "I/O error: " ++ reason
  | .malformedTree => "Malformed tree"

/-- A declaration whose type has no such name. -/
def unknownType (name : String) : Error :=
  .invalidDeclaration ("unknown type name '" ++ name ++ "'")

end Error

end MatrixScript
