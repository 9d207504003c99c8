/-
# `Json.Scanner` — reading the pieces of a JSON text

Strings, numbers, words, and the places between elements and members.  A
reader stops at the first fault and says of which kind it is: the text ends
too early, or it is no JSON, or a value is not of the kind that is wanted.
`skipValue` passes a value that nobody wants.
-/
import MatrixScript.Error
import MatrixScript.Json.Number
import MatrixScript.Text.Lines

namespace MatrixScript.Json

/-- Reads a value from the characters ahead, or finds a fault. -/
abbrev Reader := StateT (List Char) (Except DocumentFault)

namespace Reader

/-- Stops at a fault. -/
def fault {α : Type} (f : DocumentFault) : Reader α := fun _ => .error f

/-- Blanks of JSON. -/
def isSpace (c : Char) : Bool := c == ' ' || c == '\t' || c == '\n' || c == '\r'

/-- The character behind the blanks ahead, which are passed. -/
def ahead? : Reader (Option Char) := fun cs =>
  let rest := cs.dropWhile isSpace
  .ok (rest.head?, rest)

/-- Passes so many characters. -/
def pass (n : Nat) : Reader PUnit := modify (·.drop n)

/-! ## Strings -/

/-- Character that a short escape stands for. -/
def shortEscape? : Char → Option Char
  | '\x22' => some '\x22'
  | '\\' => some '\\'
  | '/' => some '/'
  | 'b' => some '\x08'
  | 'f' => some '\x0c'
  | 'n' => some '\n'
  | 'r' => some '\r'
  | 't' => some '\t'
  | _ => none

/-- Value of a hexadecimal digit in either case. -/
def hexValue? (c : Char) : Option Nat :=
  if '0' ≤ c ∧ c ≤ '9' then some (c.toNat - '0'.toNat)
  else if 'a' ≤ c ∧ c ≤ 'f' then some (c.toNat - 'a'.toNat + 10)
  else if 'A' ≤ c ∧ c ≤ 'F' then some (c.toNat - 'A'.toNat + 10)
  else none

/-- Number of four hexadecimal digits; fewer than four bytes end the text. -/
def hexFour (cs : List Char) : Except DocumentFault Nat :=
  if Text.occupied cs < 4 then .error .truncated
  else
    match (cs.take 4).mapM hexValue? with
    | some [a, b, c, d] => .ok (((a * 16 + b) * 16 + c) * 16 + d)
    | _ => .error .malformed

/-- First half of a pair of surrogates. -/
def isLeading (n : Nat) : Bool := 0xD800 ≤ n && n ≤ 0xDBFF

/-- Second half of a pair of surrogates. -/
def isTrailing (n : Nat) : Bool := 0xDC00 ≤ n && n ≤ 0xDFFF

/-- Second half of the pair whose first half is `leading`, and the characters
that the whole pair takes. -/
def trailingAt (leading : Nat) : List Char → Except DocumentFault (Char × Nat)
  | [] => .error .truncated
  | ['\\'] => .error .truncated
  | '\\' :: 'u' :: rest =>
      match hexFour rest with
      | .error f => .error f
      | .ok n =>
          if isTrailing n then
            .ok (Char.ofNat ((leading - 0xD800) * 0x400 + (n - 0xDC00) + 0x10000), 10)
          else .error .malformed
  | _ => .error .malformed

/-- Character of a numeric escape behind its `u`, and the characters that it takes. -/
def numericEscapeAt (cs : List Char) : Except DocumentFault (Char × Nat) :=
  match hexFour cs with
  | .error f => .error f
  | .ok n =>
      if isTrailing n then .error .malformed
      else if isLeading n then trailingAt n (cs.drop 4)
      else .ok (Char.ofNat n, 4)

/-- Character of an escape behind its backslash, and the characters that it takes. -/
def escapeAt : List Char → Except DocumentFault (Char × Nat)
  | [] => .error .truncated
  | c :: rest =>
      if c = 'u' then (numericEscapeAt rest).map fun (d, n) => (d, n + 1)
      else
        match shortEscape? c with
        | some d => .ok (d, 1)
        | none => .error .malformed

/-- The same for a string that nobody wants: halves of pairs are not looked at. -/
def skippedEscapeAt : List Char → Except DocumentFault (Char × Nat)
  | [] => .error .truncated
  | c :: rest =>
      if c = 'u' then (hexFour rest).map fun _ => (c, 5)
      else
        match shortEscape? c with
        | some d => .ok (d, 1)
        | none => .error .malformed

/-- Contents of a string behind its opening quote, and what follows its end. -/
def stringFrom (escape : List Char → Except DocumentFault (Char × Nat)) (cs : List Char) :
    Except DocumentFault (List Char × List Char) :=
  match cs with
  | [] => .error .truncated
  | c :: rest =>
      if c = '\x22' then .ok ([], rest)
      else if c = '\\' then
        match escape rest with
        | .error f => .error f
        | .ok (d, n) =>
            (stringFrom escape (rest.drop n)).map fun (text, after) => (d :: text, after)
      else if c.toNat < 0x20 then .error .malformed
      else (stringFrom escape rest).map fun (text, after) => (c :: text, after)
termination_by cs.length
decreasing_by all_goals simp only [List.length_drop, List.length_cons]; omega

/-- Reads a string whose opening quote is ahead. -/
def string : Reader String := fun cs =>
  (stringFrom escapeAt (cs.drop 1)).map fun (text, after) => (String.ofList text, after)

/-- Passes a string whose opening quote is ahead. -/
def skipString : Reader PUnit := fun cs =>
  (stringFrom skippedEscapeAt (cs.drop 1)).map fun (_, after) => (⟨⟩, after)

/-! ## Words -/

/-- Passes the letters of a word. -/
def word : List Char → Reader PUnit
  | [] => pure ⟨⟩
  | expected :: more => fun cs =>
      match cs with
      | [] => .error .truncated
      | c :: rest => if c = expected then word more rest else .error .malformed

/-! ## Numbers -/

/-- Passes the digits ahead and answers them. -/
def digits : Reader (List Char) := fun cs =>
  .ok (cs.takeWhile Char.isDigit, cs.dropWhile Char.isDigit)

/-- At least one digit; `ending` is the fault of a text that ends instead. -/
def someDigits (ending : DocumentFault) : Reader (List Char) := do
  if (← get).isEmpty then fault ending
  let ds ← digits
  if ds.isEmpty then fault .malformed else return ds

/-- Digits before the point: no zero stands before another digit. -/
def wholeDigits (ending : DocumentFault) : Reader (List Char) := do
  let ds ← someDigits ending
  if ds.head? == some '0' && 1 < ds.length then fault .malformed else return ds

/-- Digits behind the point, if there is one. -/
def placeDigits (ending : DocumentFault) : Reader (List Char) := do
  match (← get).head? with
  | some '.' =>
      pass 1
      someDigits ending
  | _ => return []

/-- Passes a sign if there is one; says whether it was a minus. -/
def exponentSign : Reader Bool := do
  match (← get).head? with
  | some '+' =>
      pass 1
      return false
  | some '-' =>
      pass 1
      return true
  | _ => return false

/-- The exponent; none is zero. -/
def exponent (ending : DocumentFault) : Reader Int := do
  match (← get).head? with
  | some 'e' | some 'E' =>
      pass 1
      let negative ← exponentSign
      let size : Int := Text.digitsValue (← someDigits ending)
      return if negative then -size else size
  | _ => return 0

/-- Passes the digits of a number behind its sign; one that is too large is malformed. -/
def number : Reader PUnit := do
  let whole ← wholeDigits .truncated
  let places ← placeDigits .truncated
  if (Number.ofDigits whole places (← exponent .truncated)).isTooLarge then fault .malformed

/-- The same for a number that nobody wants: any fault in it makes the text malformed. -/
def skipNumber : Reader PUnit := do
  let _ ← wholeDigits .malformed
  let _ ← placeDigits .malformed
  let _ ← exponent .malformed

/-! ## Between elements and members -/

/-- Another element follows; `first` says that none has been read. -/
def nextElement (first : Bool) : Reader Bool := do
  match ← ahead? with
  | none => fault .truncated
  | some ']' => return false
  | some c =>
      if first then return true
      else if c = ',' then
        pass 1
        match ← ahead? with
        | none => fault .truncated
        | some ']' => fault .malformed
        | some _ => return true
      else fault .malformed

/-- Another member follows, and the quote of its name is ahead. -/
def nextMember (first : Bool) : Reader Bool := do
  match ← ahead? with
  | none => fault .truncated
  | some '\x7d' => return false
  | some c =>
      if first then
        if c = '\x22' then return true else fault .malformed
      else if c = ',' then
        pass 1
        match ← ahead? with
        | none => fault .truncated
        | some '\x22' => return true
        | some _ => fault .malformed
      else fault .malformed

/-- Passes the colon behind the name of a member. -/
def colon : Reader PUnit := do
  match ← ahead? with
  | none => fault .truncated
  | some ':' => pass 1
  | some _ => fault .malformed

/-- Passes the bracket that ends an array or an object. -/
def closing (bracket : Char) : Reader PUnit := do
  match ← ahead? with
  | none => fault .truncated
  | some c => if c = bracket then pass 1 else fault .malformed

/-! ## Values that nobody wants -/

mutual

/-- Passes a value; `n` bounds its elements, members and nesting. -/
def skipValueWithin : Nat → Reader PUnit
  | 0 => fault .truncated
  | n + 1 => do
      match ← ahead? with
      | none => fault .truncated
      | some 'n' => word "null".toList
      | some 't' => word "true".toList
      | some 'f' => word "false".toList
      | some '\x22' => skipString
      | some '[' =>
          pass 1
          skipElements n true
      | some '\x7b' =>
          pass 1
          skipMembers n true
      | some '-' =>
          pass 1
          skipNumber
      | some c => if c.isDigit then skipNumber else fault .malformed

/-- Passes elements up to the end of their array. -/
def skipElements : Nat → Bool → Reader PUnit
  | 0, _ => fault .truncated
  | n + 1, first => do
      if ← nextElement first then
        skipValueWithin n
        skipElements n false
      else closing ']'

/-- Passes members up to the end of their object. -/
def skipMembers : Nat → Bool → Reader PUnit
  | 0, _ => fault .truncated
  | n + 1, first => do
      if ← nextMember first then
        skipString
        colon
        skipValueWithin n
        skipMembers n false
      else closing '\x7d'

end

/-- Passes a value. -/
def skipValue : Reader PUnit := do skipValueWithin (2 * (← get).length + 2)

/-! ## Values of another kind -/

/-- A value that is not of the wanted kind: what is malformed in it comes first. -/
def wrongKind {α : Type} : Reader α := do
  match ← ahead? with
  | none => fault .truncated
  | some 'n' => word "null".toList
  | some 't' => word "true".toList
  | some 'f' => word "false".toList
  | some '\x22' =>
      let _ ← string
  | some '[' => pure ⟨⟩
  | some '\x7b' => pure ⟨⟩
  | some '-' =>
      pass 1
      number
  | some c => if c.isDigit then number else fault .malformed
  fault (.unfit none)

/-- Reads a value that has to be a string. -/
def wantString : Reader String := do
  match ← ahead? with
  | some '\x22' => string
  | _ => wrongKind

/-- Reads a value that has to be a truth value. -/
def wantBool : Reader Bool := do
  match ← ahead? with
  | some 't' =>
      word "true".toList
      return true
  | some 'f' =>
      word "false".toList
      return false
  | _ => wrongKind

/-- Nothing but blanks is ahead. -/
def finish : Reader PUnit := do
  match ← ahead? with
  | none => return
  | some _ => fault .malformed

end Reader

end MatrixScript.Json
