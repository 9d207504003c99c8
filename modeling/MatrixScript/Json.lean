/-
# `Json` — documents and their text

JSON values with members in a given order, and the text of one with an
indentation of two blanks per level: a pair of brackets where there is
nothing in it, one element or member per line otherwise.
-/
import MatrixScript.Text.Lines

namespace MatrixScript

/-- A JSON value. -/
inductive Json where
  | bool (b : Bool)
  | number (n : Nat)
  | string (s : String)
  | array (elements : List Json)
  | object (members : List (String × Json))
deriving Repr, Inhabited

namespace Json

/-! ## Strings -/

/-- Lower-case hexadecimal digit. -/
def hexDigit (n : Nat) : Char := "0123456789abcdef".toList.getD n '0'

/-- A control character without an escape of its own. -/
def controlEscape (c : Char) : List Char :=
  ['\\', 'u', '0', '0', hexDigit (c.toNat / 16), hexDigit (c.toNat % 16)]

/-- A character inside a string. -/
def escapedChar (c : Char) : List Char :=
  if c = '\x22' then ['\\', '\x22']
  else if c = '\\' then ['\\', '\\']
  else if c = '\x08' then ['\\', 'b']
  else if c = '\x0c' then ['\\', 'f']
  else if c = '\n' then ['\\', 'n']
  else if c = '\r' then ['\\', 'r']
  else if c = '\t' then ['\\', 't']
  else if c.toNat < 0x20 then controlEscape c
  else [c]

/-- A string in quotes. -/
def quoted (s : String) : String :=
  String.ofList ('\x22' :: s.toList.flatMap escapedChar ++ ['\x22'])

/-! ## Layout -/

/-- A new line at a level. -/
def newLine (level : Nat) : String := "\n" ++ String.ofList (List.replicate (2 * level) ' ')

/-- Items between brackets, each on a line of its own. -/
def bracketed (level : Nat) (opening closing : String) (items : List String) : String :=
  if items.isEmpty then opening ++ closing
  else
    opening ++ newLine (level + 1) ++ Text.joined ("," ++ newLine (level + 1)) items
      ++ newLine level ++ closing

mutual

/-- Text of a value at a level. -/
def textAt (level : Nat) : Json → String
  | .bool true => "true"
  | .bool false => "false"
  | .number n => toString n
  | .string s => quoted s
  | .array elements => bracketed level "[" "]" (elementTexts (level + 1) elements)
  | .object members => bracketed level "\x7b" "\x7d" (memberTexts (level + 1) members)

/-- Texts of elements at a level. -/
def elementTexts (level : Nat) : List Json → List String
  | [] => []
  | e :: es => textAt level e :: elementTexts level es

/-- Texts of members at a level. -/
def memberTexts (level : Nat) : List (String × Json) → List String
  | [] => []
  | (name, value) :: rest =>
      (quoted name ++ ": " ++ textAt level value) :: memberTexts level rest

end

/-- Text of a value. -/
def text (j : Json) : String := textAt 0 j

end Json

end MatrixScript
