/-
# `Template` — how a rule says what to emit

A template is a complete text, the texts of the children with something
between them, or a pattern with placeholders.  `%(k)s` is the text of the
child number `k`; `%(name)s`, `%(type)s` and `%(value)s` read the node
itself.  Substitution reads a pattern once from left to right: what is
inserted is not read again, an unknown placeholder stays as it is, and
without an end the rest stays as it is.
-/
import MatrixScript.Text.Lines
import MatrixScript.Tree

namespace MatrixScript

/-- What a rule answers. -/
inductive Template where
  /-- the complete text -/
  | fixed (text : String)
  /-- the texts of the children with `between` in the gaps -/
  | join (before between after : String)
  /-- a pattern with placeholders -/
  | format (pattern : String)
deriving DecidableEq, Repr

namespace Template

/-- Number of a child in a placeholder; a plus sign may stand before it. -/
def childNumber? : List Char → Option Nat
  | '+' :: digits => Text.natural? digits
  | digits => Text.natural? digits

/-- What a placeholder stands for. -/
def valueOf? (node : Node) (texts : List String) (key : List Char) : Option String :=
  if key = "name".toList then some node.name
  else if key = "type".toList then some node.datatype.typeName
  else if key = "value".toList then node.value
  else
    match childNumber? key with
    | some k => texts[k]?
    | none => none

/-- The placeholder of a key as it is written. -/
def placeholder (key : List Char) : List Char := '%' :: '(' :: (key ++ [')', 's'])

/-- A pattern with its placeholders replaced by their values. -/
def substitute (value : List Char → Option (List Char)) (pattern : List Char) : List Char :=
  match _hopen : Text.splitAtPair '%' '(' pattern with
  | none => pattern
  | some (before, after) =>
      match _hclose : Text.splitAtPair ')' 's' after with
      | none => pattern
      | some (key, rest) =>
          before ++ (value key).getD (placeholder key) ++ substitute value rest
termination_by pattern.length
decreasing_by
  have hpattern := congrArg List.length (Text.splitAtPair_eq_some _hopen)
  have hafter := congrArg List.length (Text.splitAtPair_eq_some _hclose)
  simp only [List.length_append, List.length_cons] at hpattern hafter
  omega

/-- The text of a template at a node whose children have the given texts. -/
def render (node : Node) (texts : List String) : Template → String
  | .fixed text => text
  | .join before between after => before ++ Text.joined between texts ++ after
  | .format pattern =>
      String.ofList
        (substitute (fun key => (valueOf? node texts key).map String.toList) pattern.toList)

end Template

end MatrixScript
