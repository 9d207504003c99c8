/-
# `Translation` — what translating a program gives

The emitted lines with everything that goes with them: diagnostics, helpers,
suggested declarations, and whether the clock is read.
-/
import MatrixScript.State
import MatrixScript.Text.Lines

namespace MatrixScript

/-- Everything that translating one program gives. -/
structure Translation where
  /-- emitted lines, definitions of temporaries in front of their statement -/
  statements : List String
  diagnostics : List Diagnostic
  /-- helpers that the lines rely on, in order -/
  includes : List Include
  /-- suggested type of each variable and temporary -/
  suggestions : NameTable Datatype
  /-- the lines read the wall clock -/
  usesTimer : Bool
deriving DecidableEq, Repr

namespace Translation

/-- The lines as one text. -/
def code (t : Translation) : String := Text.joined "\n" t.statements

/-- Diagnostics that are errors. -/
def errors (t : Translation) : List Diagnostic := Diagnostic.ofSeverity .error t.diagnostics

/-- Diagnostics that are warnings. -/
def warnings (t : Translation) : List Diagnostic := Diagnostic.ofSeverity .warning t.diagnostics

/-- Some diagnostic is an error. -/
def hasErrors (t : Translation) : Bool := !t.errors.isEmpty

/-- The translation of lines from the state that they leave. -/
def ofState (statements : List String) (s : State) : Translation :=
  { statements
    diagnostics := s.diagnostics
    includes := Include.listed s.includes
    suggestions := s.suggestions
    usesTimer := s.clock.used }

end Translation

end MatrixScript
