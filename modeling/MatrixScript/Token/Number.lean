/-
# `Token.Number` — number literals

A number is a mantissa (digits, with at most one point and at least one
digit), an exponent if it is complete, and a mark `i` or `j` if it is
imaginary.  `numberAt?` gives the kind and the length of the longest number
at the head of a text; an exponent without digits is no part of it.
-/

namespace MatrixScript.Token

/-- Digits at the head of a text. -/
def digitCount (cs : List Char) : Nat := (cs.takeWhile Char.isDigit).length

/-- Kinds of number literals. -/
inductive NumberKind where
  | int
  | float
  | imag
deriving DecidableEq, Repr

/-- Length of the mantissa at the head of a text, and whether it has a point. -/
def mantissaAt? (cs : List Char) : Option (Bool × Nat) :=
  let whole := digitCount cs
  match cs.drop whole with
  | '.' :: rest =>
      let places := digitCount rest
      if whole = 0 ∧ places = 0 then none else some (true, whole + 1 + places)
  | _ => if whole = 0 then none else some (false, whole)

/-- Length of a sign at the head of a text. -/
def signLength : List Char → Nat
  | '+' :: _ | '-' :: _ => 1
  | _ => 0

/-- Length of the exponent at the head of a text: zero unless it has digits. -/
def exponentLength : List Char → Nat
  | [] => 0
  | c :: rest =>
      if c = 'e' ∨ c = 'E' then
        let digits := digitCount (rest.drop (signLength rest))
        if digits = 0 then 0 else 1 + signLength rest + digits
      else 0

/-- The text goes on with the mark of an imaginary number. -/
def startsImaginary : List Char → Bool
  | 'i' :: _ | 'j' :: _ => true
  | _ => false

/-- Kind and length of the longest number at the head of a text. -/
def numberAt? (cs : List Char) : Option (NumberKind × Nat) :=
  match mantissaAt? cs with
  | none => none
  | some (point, mantissa) =>
      let exponent := exponentLength (cs.drop mantissa)
      if startsImaginary (cs.drop (mantissa + exponent)) then
        some (.imag, mantissa + exponent + 1)
      else if point || 0 < exponent then some (.float, mantissa + exponent)
      else some (.int, mantissa)

end MatrixScript.Token
