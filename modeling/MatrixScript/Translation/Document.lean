/-
# `Translation.Document` — translations as JSON

The document of a translation, for tools: lines, diagnostics, helpers by
their short names, suggested types by variable, and the clock.
-/
import MatrixScript.Json
import MatrixScript.Translation

namespace MatrixScript

/-- Document of a diagnostic. -/
def Diagnostic.document (d : Diagnostic) : Json :=
  .object
    [ ("severity", .string d.severity.text),
      ("kind", .string d.problem.code),
      ("node", .number d.node),
      ("category", .string d.category.name),
      ("label", .string d.label),
      ("message", .string d.message) ]

/-- Document of types by name. -/
def Datatype.tableDocument (t : NameTable Datatype) : Json :=
  .object (t.entries.map fun (name, d) => (name, .string d.typeName))

namespace Translation

/-- Document of a translation. -/
def document (t : Translation) : Json :=
  .object
    [ ("statements", .array (t.statements.map .string)),
      ("diagnostics", .array (t.diagnostics.map (·.document))),
      ("includes", .array (t.includes.map fun i => .string i.code)),
      ("suggestions", Datatype.tableDocument t.suggestions),
      ("uses_timer", .bool t.usesTimer) ]

/-- Text of the document. -/
def json (t : Translation) : String := t.document.text

end Translation

end MatrixScript
