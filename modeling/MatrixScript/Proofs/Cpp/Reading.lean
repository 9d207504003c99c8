/-
# `Proofs.Cpp.Reading` — emitted arithmetic, read as C++

Arithmetic expressions of the target language: numerals, variables, parentheses,
the four operators and calls of `std::pow`.  `read?` reads a text as C++ does,
with products tighter than sums and both grouped from the left.  `value` is the
exact rational number that an expression stands for, except that a division of
two operands of integral type is cut to an integer, and one by zero has none.

An expression is canonical if its operands are as tight as C++ needs them to be
without further parentheses, and its numerals and names are single tokens.  The
text of a canonical expression reads as that expression and as no other one
(`read?_spelled`).  As the reader groups from the left, an expression is not read
as an operand in front of a longer chain.  What holds instead is that reading
the chain arrives at it on the way, with the loop still running (`Feeds`).
-/
import MatrixScript.Proofs.Program.Scalar

namespace MatrixScript.Cpp

/-- Operators between two operands. -/
inductive Op where
  | add
  | sub
  | mul
  | div
deriving DecidableEq, Repr

/-- Arithmetic expressions; numerals and variables are kept as they are spelled. -/
inductive Expr where
  | int (digits : String)
  | float (text : String)
  | name (x : String)
  | paren (inner : Expr)
  | binary (op : Op) (left right : Expr)
  /-- a call of `std::pow` -/
  | pow (base exponent : Expr)
deriving DecidableEq, Repr

/-! ## Texts -/

/-- Character of an operator. -/
def Op.symbol : Op → Char
  | .add => '+'
  | .sub => '-'
  | .mul => '*'
  | .div => '/'

/-- Level of an operator: 0 for sums, 1 for products. -/
def Op.level : Op → Nat
  | .add | .sub => 0
  | .mul | .div => 1

/-- Level of an expression: that of its outermost operator. -/
def Expr.level : Expr → Nat
  | .binary op _ _ => op.level
  | _ => 2

theorem Op.level_lt (op : Op) : op.level < 2 := by cases op <;> decide

theorem Expr.level_le (e : Expr) : e.level ≤ 2 := by
  cases e with
  | binary op left right => exact Nat.le_of_lt op.level_lt
  | _ => exact Nat.le_refl 2

/-- What stands behind `std` in a call of the power function. -/
def callTail : List Char := [':', ':', 'p', 'o', 'w', '(']

/-- What stands between the arguments of a call. -/
def comma : List Char := [',', ' ']

/-- Characters of an expression. -/
def Expr.spelled : Expr → List Char
  | .int s | .float s | .name s => s.toList
  | .paren e => '(' :: (e.spelled ++ [')'])
  | .binary op left right => left.spelled ++ op.symbol :: right.spelled
  | .pow base exponent =>
      ['s', 't', 'd'] ++ callTail ++ (base.spelled ++ comma ++ (exponent.spelled ++ [')']))

/-! ## Reading -/

/-- Reads a value off the head of a text, or fails. -/
abbrev Reader (α : Type) := List Char → Option (α × List Char)

/-- The text behind `word`, which must be at its head. -/
def behind? (word text : List Char) : Option (List Char) :=
  if word.isPrefixOf text then some (text.drop word.length) else none

/-- Decimal numerals; an integer with a zero in front would be octal. -/
def readNumeral : Reader Expr := fun text =>
  match Token.numberAt? text with
  | some (.int, n) =>
      if Token.hasLeadingZero (text.take n) then none
      else some (.int (String.ofList (text.take n)), text.drop n)
  | some (.float, n) => some (.float (String.ofList (text.take n)), text.drop n)
  | _ => none

/-- The arguments of `std::pow` and the parenthesis behind them. -/
def readArguments (inner : Reader Expr) : Reader Expr := fun text => do
  let (base, text) ← inner text
  let text ← behind? comma text
  let (exponent, text) ← inner text
  let text ← behind? [')'] text
  return (.pow base exponent, text)

/-- Variables and calls of `std::pow`. -/
def readWord (inner : Reader Expr) : Reader Expr := fun text =>
  let word := text.takeWhile Token.isWordRest
  let text := text.dropWhile Token.isWordRest
  match behind? callTail text with
  | some text => if word = ['s', 't', 'd'] then readArguments inner text else none
  | none => some (.name (String.ofList word), text)

/-- Numerals, variables, calls and parentheses. -/
def readPrimary (inner : Reader Expr) : Reader Expr
  | [] => none
  | c :: text =>
      if c = '(' then do
        let (e, text) ← inner text
        let text ← behind? [')'] text
        return (.paren e, text)
      else if Token.isWordStart c then readWord inner (c :: text)
      else readNumeral (c :: text)

/-- Operators of a level. -/
def operatorAt : Nat → Char → Option Op
  | 0, '+' => some .add
  | 0, '-' => some .sub
  | 1, '*' => some .mul
  | 1, '/' => some .div
  | _, _ => none

/-- Operators of a level, each with an operand behind it, applied to `left`. -/
def readMore (operand : Reader Expr) (ℓ : Nat) : Nat → Expr → Reader Expr
  | 0, left, text => some (left, text)
  | _ + 1, left, [] => some (left, [])
  | n + 1, left, c :: text =>
      match operatorAt ℓ c with
      | none => some (left, c :: text)
      | some op => do
          let (right, text) ← operand text
          readMore operand ℓ n (.binary op left right) text

/-- A level of left-associative operators; every operator takes a character. -/
def readChain (operand : Reader Expr) (ℓ : Nat) : Reader Expr := fun text => do
  let (left, rest) ← operand text
  readMore operand ℓ text.length left rest

/-- Expressions of a level or a tighter one. -/
def readAt (inner : Reader Expr) : Nat → Reader Expr
  | 0 => readChain (readChain (readPrimary inner) 1) 0
  | 1 => readChain (readPrimary inner) 1
  | _ => readPrimary inner

/-- Expressions whose parentheses nest less than `n` deep. -/
def readExpr : Nat → Reader Expr
  | 0 => fun _ => none
  | n + 1 => readAt (readExpr n) 0

/-- The expression that a text is, from end to end. -/
def read? (text : String) : Option Expr :=
  match readExpr (text.toList.length + 1) text.toList with
  | some (e, []) => some e
  | _ => none

example : read? "a-b-c*2" = some
    (.binary .sub (.binary .sub (.name "a") (.name "b")) (.binary .mul (.name "c") (.int "2"))) := by
  decide +kernel

/-! ## Values -/

/-- The expression has floating-point type; all other ones have an integral one. -/
def Expr.isFloating (floating : String → Bool) : Expr → Bool
  | .int _ => false
  | .float _ => true
  | .name x => floating x
  | .paren e => e.isFloating floating
  | .binary _ left right => left.isFloating floating || right.isFloating floating
  | .pow _ _ => true

/-- The integer that is left of a number without its fraction. -/
def truncated (q : ℚ) : ℚ := q.num.tdiv q.den

/-- An operator on numbers, at floating-point type or at an integral one. -/
def Op.apply (floating : Bool) : Op → ℚ → ℚ → Option ℚ
  | .add, a, b => some (a + b)
  | .sub, a, b => some (a - b)
  | .mul, a, b => some (a * b)
  | .div, a, b => if floating then quotient? a b else (quotient? a b).map truncated

/-- Number of an expression whose variables of floating-point type are the ones that
`floating` holds of. -/
def Expr.value (floating : String → Bool) (env : Env) : Expr → Option ℚ
  | .int s | .float s => some (Token.decimal s.toList)
  | .name x => some (env.value x)
  | .paren e => e.value floating env
  | .binary op left right =>
      combined (op.apply ((Expr.binary op left right).isFloating floating))
        (left.value floating env) (right.value floating env)
  | .pow base exponent => combined env.power (base.value floating env) (exponent.value floating env)

/-- A quotient of integers is cut; a factor of floating-point type keeps it whole. -/
example : (read? "7/2").bind (Expr.value (fun _ => false) ⟨fun _ => 0, fun _ _ => none⟩) = some 3
    ∧ (read? "7*1.0/2").bind (Expr.value (fun _ => false) ⟨fun _ => 0, fun _ _ => none⟩)
      = some (7 / 2) := by
  decide +kernel

/-! ## Expressions that are read back -/

/-- Every operand stands at a level that its operator can take. -/
inductive Expr.Canonical : Expr → Prop
  | int {s : String} : LiteralKind.int.spells s → Token.hasLeadingZero s.toList = false → Canonical (.int s)
  | float {s : String} : LiteralKind.float.spells s → Canonical (.float s)
  | name {x : String} : isName x → Canonical (.name x)
  | paren {e : Expr} : Canonical e → Canonical (.paren e)
  | binary {op : Op} {left right : Expr} : Canonical left → op.level ≤ left.level →
      Canonical right → op.level < right.level → Canonical (.binary op left right)
  | pow {base exponent : Expr} : Canonical base → Canonical exponent →
      Canonical (.pow base exponent)

/-! ## Ends of expressions -/

/-- The text goes on with no operator of level `ℓ` or a tighter one. -/
def Ends (ℓ : Nat) (text : List Char) : Prop :=
  ∀ c ∈ text.head?, c = ')' ∨ c = ',' ∨ ∃ op : Op, c = op.symbol ∧ op.level < ℓ

theorem Ends.mono {ℓ m : Nat} {text : List Char} (h : Ends ℓ text) (le : ℓ ≤ m) : Ends m text := by
  intro c mem
  rcases h c mem with close | comma | ⟨op, symbol, lt⟩
  · exact .inl close
  · exact .inr (.inl comma)
  · exact .inr (.inr ⟨op, symbol, Nat.lt_of_lt_of_le lt le⟩)

theorem ends_nil (ℓ : Nat) : Ends ℓ [] := nofun

theorem ends_cons {ℓ : Nat} {c : Char} {text : List Char}
    (h : c = ')' ∨ c = ',' ∨ ∃ op : Op, c = op.symbol ∧ op.level < ℓ) : Ends ℓ (c :: text) := by
  intro d mem
  obtain rfl : c = d := Option.some.inj mem
  exact h

theorem endsWord_of_ends {ℓ : Nat} {text : List Char} (h : Ends ℓ text) : Token.EndsWord text := by
  intro c mem
  rcases h c mem with rfl | rfl | ⟨op, rfl, -⟩
  · decide
  · decide
  · cases op <;> decide

theorem operatorAt_symbol (op : Op) : operatorAt op.level op.symbol = some op := by
  cases op <;> rfl

theorem eq_symbol_of_operatorAt {ℓ : Nat} {c : Char} {op : Op} (h : operatorAt ℓ c = some op) :
    c = op.symbol ∧ op.level = ℓ := by
  unfold operatorAt at h
  split at h
  · cases h; exact ⟨rfl, rfl⟩
  · cases h; exact ⟨rfl, rfl⟩
  · cases h; exact ⟨rfl, rfl⟩
  · cases h; exact ⟨rfl, rfl⟩
  · cases h

theorem Op.symbol_injective {op op' : Op} (h : op.symbol = op'.symbol) : op = op' := by
  cases op <;> cases op' <;> first | rfl | cases h

theorem operatorAt_of_ends {ℓ : Nat} {c : Char} {text : List Char} (h : Ends ℓ (c :: text)) :
    operatorAt ℓ c = none := by
  cases found : operatorAt ℓ c with
  | none => rfl
  | some op =>
    obtain ⟨rfl, rfl⟩ := eq_symbol_of_operatorAt found
    rcases h _ rfl with close | comma | ⟨other, symbol, lt⟩
    · cases op <;> cases close
    · cases op <;> cases comma
    · rw [Op.symbol_injective symbol] at lt
      exact absurd lt (Nat.lt_irrefl _)

theorem behind?_append (word text : List Char) : behind? word (word ++ text) = some text := by
  have opens : word.isPrefixOf (word ++ text) := List.isPrefixOf_iff_prefix.mpr ⟨text, rfl⟩
  rw [behind?, if_pos opens, List.drop_left]

/-! ## Primaries -/

section Primaries

variable {inner : Reader Expr} {text : List Char}

theorem readNumeral_int {s : String} (spells : LiteralKind.int.spells s)
    (plain : Token.hasLeadingZero s.toList = false) (ends : Token.EndsWord text) :
    readNumeral (s.toList ++ text) = some (.int s, text) := by
  have found := Token.numberAt?_append (eq_of_beq spells) ends
  simp [readNumeral, found, plain]

theorem readNumeral_float {s : String} (spells : LiteralKind.float.spells s)
    (ends : Token.EndsWord text) : readNumeral (s.toList ++ text) = some (.float s, text) := by
  have found := Token.numberAt?_append (eq_of_beq spells) ends
  simp [readNumeral, found]

/-- A text that starts like a number is read as a numeral. -/
theorem readPrimary_of_number {cs : List Char} {found : Token.NumberKind × Nat}
    (number : Token.numberAt? cs = some found) :
    readPrimary inner (cs ++ text) = readNumeral (cs ++ text) := by
  cases cs with
  | nil => cases number
  | cons c cs =>
    have head := Token.numberAt?_head number
    have opens : c ≠ '(' := by
      rintro rfl
      rcases head with digit | point
      · cases digit
      · cases point
    rw [List.cons_append, readPrimary, if_neg opens, if_neg]
    rw [Token.isWordStart_of_number head]
    exact Bool.false_ne_true

theorem isWordRest_of_isWordStart {c : Char} (h : Token.isWordStart c) : Token.isWordRest c := by
  simp only [Token.isWordStart, Token.isWordRest, Char.isAlphanum, Bool.or_eq_true] at h ⊢
  rcases h with letter | line
  · exact .inl (.inl letter)
  · exact .inr line

theorem readWord_name {ℓ : Nat} {x : String} (word : x.toList.all Token.isWordRest)
    (ends : Ends ℓ text) : readWord inner (x.toList ++ text) = some (.name x, text) := by
  have stop : ∀ c ∈ text.head?, Token.isWordRest c = false :=
    fun c mem => (endsWord_of_ends ends c mem).1
  have taken := Token.takeWhile_append_of_stop word stop
  have dropped := Token.dropWhile_append_of_stop word stop
  have noCall : behind? callTail text = none := by
    refine if_neg fun opens => ?_
    obtain ⟨rest, rfl⟩ := List.isPrefixOf_iff_prefix.mp opens
    rcases ends ':' rfl with close | comma | ⟨op, symbol, -⟩
    · cases close
    · cases comma
    · cases op <;> cases symbol
  simp only [readWord, taken, dropped, noCall, String.ofList_toList]

theorem readPrimary_name {ℓ : Nat} {x : String} (name : isName x) (ends : Ends ℓ text) :
    readPrimary inner (x.toList ++ text) = some (.name x, text) := by
  unfold isName at name
  cases letters : x.toList with
  | nil => simp [letters] at name
  | cons c cs =>
    rw [letters] at name
    simp only [Bool.and_eq_true] at name
    obtain ⟨⟨start, rest⟩, -⟩ := name
    have opens : c ≠ '(' := by
      rintro rfl
      cases start
    have word : x.toList.all Token.isWordRest := by
      rw [letters, List.all_cons, rest, isWordRest_of_isWordStart start]
      rfl
    rw [List.cons_append, readPrimary, if_neg opens, if_pos start, ← List.cons_append, ← letters,
      readWord_name word ends]

theorem readPrimary_paren {e : Expr}
    (reads : inner (e.spelled ++ ([')'] ++ text)) = some (e, [')'] ++ text)) :
    readPrimary inner ((Expr.paren e).spelled ++ text) = some (.paren e, text) := by
  have spelled : (Expr.paren e).spelled ++ text = '(' :: (e.spelled ++ ([')'] ++ text)) := by
    rw [Expr.spelled, List.cons_append, List.append_assoc]
  have close := behind?_append [')'] text
  rw [spelled, readPrimary, if_pos rfl, reads]
  simp only [Option.bind_eq_bind, Option.bind_some, close]
  rfl

theorem readArguments_spelled {u v : Expr}
    (base : inner (u.spelled ++ (comma ++ (v.spelled ++ ([')'] ++ text))))
      = some (u, comma ++ (v.spelled ++ ([')'] ++ text))))
    (exponent : inner (v.spelled ++ ([')'] ++ text)) = some (v, [')'] ++ text)) :
    readArguments inner (u.spelled ++ (comma ++ (v.spelled ++ ([')'] ++ text))))
      = some (.pow u v, text) := by
  have between := behind?_append comma (v.spelled ++ ([')'] ++ text))
  have close := behind?_append [')'] text
  rw [readArguments, base]
  simp only [Option.bind_eq_bind, Option.bind_some, between, exponent, close]
  rfl

theorem readPrimary_pow {u v : Expr}
    (arguments : readArguments inner (u.spelled ++ (comma ++ (v.spelled ++ ([')'] ++ text))))
      = some (.pow u v, text)) :
    readPrimary inner ((Expr.pow u v).spelled ++ text) = some (.pow u v, text) := by
  generalize tail : u.spelled ++ (comma ++ (v.spelled ++ ([')'] ++ text))) = rest at arguments
  have spelled : (Expr.pow u v).spelled ++ text = ['s', 't', 'd'] ++ (callTail ++ rest) := by
    simp only [Expr.spelled, ← tail, List.append_assoc]
  have stop : ∀ c ∈ (callTail ++ rest).head?, Token.isWordRest c = false := by
    intro c mem
    obtain rfl : ':' = c := Option.some.inj mem
    rfl
  have word : ['s', 't', 'd'].all Token.isWordRest := rfl
  have taken := Token.takeWhile_append_of_stop word stop
  have dropped := Token.dropWhile_append_of_stop word stop
  have call := behind?_append callTail rest
  have read : readWord inner (['s', 't', 'd'] ++ (callTail ++ rest)) = some (.pow u v, text) := by
    simp only [readWord, taken, dropped, call, if_true, arguments]
  rw [spelled]
  exact read

end Primaries

/-! ## Chains -/

section Chains

variable {inner : Reader Expr} {ℓ : Nat} {e : Expr}

/-- At level `ℓ` the text of `e` is read as `e`, in front of any end. -/
def Reads (inner : Reader Expr) (ℓ : Nat) (e : Expr) : Prop :=
  ∀ text, Ends ℓ text → readAt inner ℓ (e.spelled ++ text) = some (e, text)

/-- The loop of level `ℓ` comes to `e` after `k` rounds, whatever goes on behind it. -/
def Feeds (inner : Reader Expr) (ℓ : Nat) (e : Expr) : Prop :=
  ∃ k ≤ e.spelled.length, ∀ n text, Ends (ℓ + 1) text →
    (readAt inner (ℓ + 1) (e.spelled ++ text)).bind
        (fun (left, rest) => readMore (readAt inner (ℓ + 1)) ℓ (n + k) left rest)
      = readMore (readAt inner (ℓ + 1)) ℓ n e text

theorem readAt_eq_chain (loops : ℓ < 2) (inner : Reader Expr) :
    readAt inner ℓ = readChain (readAt inner (ℓ + 1)) ℓ := by
  have cases : ℓ = 0 ∨ ℓ = 1 := by omega
  rcases cases with rfl | rfl <;> rfl

theorem readMore_of_ends {operand : Reader Expr} {text : List Char} (ends : Ends ℓ text) (n : Nat)
    (e : Expr) : readMore operand ℓ n e text = some (e, text) := by
  cases n with
  | zero => rfl
  | succ n =>
    cases text with
    | nil => rfl
    | cons c text => rw [readMore, operatorAt_of_ends ends]

theorem reads_of_feeds (loops : ℓ < 2) (h : Feeds inner ℓ e) : Reads inner ℓ e := by
  obtain ⟨k, le, feeds⟩ := h
  intro text ends
  obtain ⟨n, enough⟩ : ∃ n, (e.spelled ++ text).length = n + k :=
    ⟨(e.spelled ++ text).length - k, by rw [List.length_append]; omega⟩
  rw [readAt_eq_chain loops, readChain, enough]
  exact (feeds n text (ends.mono (Nat.le_succ ℓ))).trans (readMore_of_ends ends n e)

theorem feeds_of_reads (h : Reads inner (ℓ + 1) e) : Feeds inner ℓ e :=
  ⟨0, Nat.zero_le _, fun n text ends => by rw [h text ends]; rfl⟩

/-- One more operator of the level takes one more round. -/
theorem feeds_binary {op : Op} {left right : Expr} (first : Feeds inner op.level left)
    (second : Reads inner (op.level + 1) right) :
    Feeds inner op.level (.binary op left right) := by
  obtain ⟨k, le, feeds⟩ := first
  refine ⟨k + 1, ?_, fun n text ends => ?_⟩
  case refine_1 =>
    simp only [Expr.spelled, List.length_append, List.length_cons]
    omega
  case refine_2 =>
    have goesOn : Ends (op.level + 1) (op.symbol :: (right.spelled ++ text)) :=
      ends_cons (.inr (.inr ⟨op, rfl, Nat.lt_succ_self _⟩))
    have spelled : (Expr.binary op left right).spelled ++ text
        = left.spelled ++ op.symbol :: (right.spelled ++ text) := by
      rw [Expr.spelled, List.append_assoc, List.cons_append]
    have rounds : n + (k + 1) = n + 1 + k := by omega
    rw [spelled, rounds, feeds (n + 1) _ goesOn, readMore, operatorAt_symbol]
    show (readAt inner (op.level + 1) (right.spelled ++ text)).bind _ = _
    rw [second text ends]
    rfl

/-- At its own level and at every looser one `e` is read, alone or as the start of a chain. -/
structure Standing (inner : Reader Expr) (e : Expr) : Prop where
  reads : ∀ ℓ ≤ e.level, Reads inner ℓ e
  feeds : ∀ ℓ ≤ e.level, ℓ < 2 → Feeds inner ℓ e

/-- What is read at a level is read at every looser one. -/
theorem Reads.descend {d : Nat} (h : Reads inner (ℓ + d) e) (loops : ℓ + d ≤ 2) :
    Reads inner ℓ e := by
  induction d generalizing ℓ with
  | zero => exact h
  | succ d ih =>
    have next : Reads inner (ℓ + 1) e := ih (by rwa [Nat.add_right_comm]) (by omega)
    exact reads_of_feeds (by omega) (feeds_of_reads next)

theorem standing_of_own (reads : Reads inner e.level e)
    (feeds : e.level < 2 → Feeds inner e.level e) : Standing inner e := by
  have below : ∀ ℓ ≤ e.level, Reads inner ℓ e := by
    intro ℓ le
    obtain ⟨d, eq⟩ := Nat.exists_eq_add_of_le le
    rw [eq] at reads
    exact reads.descend (eq ▸ e.level_le)
  refine ⟨below, fun ℓ le loops => ?_⟩
  rcases Nat.lt_or_eq_of_le le with lt | rfl
  · exact feeds_of_reads (below (ℓ + 1) lt)
  · exact feeds loops

theorem standing_of_primary (tight : e.level = 2)
    (reads : ∀ text, Ends 2 text → readPrimary inner (e.spelled ++ text) = some (e, text)) :
    Standing inner e := by
  refine standing_of_own ?_ (fun loops => absurd loops (by omega))
  rw [tight]
  exact reads

end Chains

/-! ## Whole texts -/

theorem ends_close (text : List Char) : Ends 0 ([')'] ++ text) := ends_cons (.inl rfl)

theorem ends_comma (text : List Char) : Ends 0 (comma ++ text) := ends_cons (.inr (.inl rfl))

/-- What is read at the loosest level is read inside parentheses. -/
theorem readExpr_of_standing {n : Nat} {e : Expr} (h : Standing (readExpr n) e) {text : List Char}
    (ends : Ends 0 text) : readExpr (n + 1) (e.spelled ++ text) = some (e, text) :=
  h.reads 0 (Nat.zero_le _) text ends

/-- The characters of an expression bound how deep it nests. -/
theorem Expr.Canonical.standing {e : Expr} (h : e.Canonical) :
    ∀ {n : Nat}, e.spelled.length ≤ n → Standing (readExpr n) e := by
  induction h with
  | int spells plain =>
    intro n _
    refine standing_of_primary rfl fun text ends => ?_
    rw [Expr.spelled, readPrimary_of_number (eq_of_beq spells)]
    exact readNumeral_int spells plain (endsWord_of_ends ends)
  | float spells =>
    intro n _
    refine standing_of_primary rfl fun text ends => ?_
    rw [Expr.spelled, readPrimary_of_number (eq_of_beq spells)]
    exact readNumeral_float spells (endsWord_of_ends ends)
  | name word =>
    intro n _
    exact standing_of_primary rfl fun text ends => readPrimary_name word ends
  | @paren e _ ih =>
    intro n le
    simp only [Expr.spelled, List.length_cons, List.length_append, List.length_nil] at le
    obtain ⟨n, rfl⟩ := Nat.exists_eq_add_one_of_ne_zero (n := n) (by omega)
    refine standing_of_primary rfl fun text _ => readPrimary_paren ?_
    exact readExpr_of_standing (ih (by omega)) (ends_close text)
  | @binary op left right _ first _ second ihl ihr =>
    intro n le
    simp only [Expr.spelled, List.length_append, List.length_cons] at le
    have standing := ihl (n := n) (by omega)
    have operand := ihr (n := n) (by omega)
    have feeds := feeds_binary (standing.feeds op.level first op.level_lt)
      (operand.reads (op.level + 1) second)
    exact standing_of_own (reads_of_feeds op.level_lt feeds) fun _ => feeds
  | @pow base exponent _ _ ihb ihe =>
    intro n le
    simp only [Expr.spelled, List.length_append, List.length_cons, List.length_nil] at le
    obtain ⟨n, rfl⟩ := Nat.exists_eq_add_one_of_ne_zero (n := n) (by omega)
    refine standing_of_primary rfl fun text _ => readPrimary_pow (readArguments_spelled ?_ ?_)
    · exact readExpr_of_standing (ihb (by omega)) (ends_comma _)
    · exact readExpr_of_standing (ihe (by omega)) (ends_close text)

/-- The text of a canonical expression is read as that expression. -/
theorem read?_spelled {e : Expr} (h : e.Canonical) {text : String} (spelled : text.toList = e.spelled) :
    read? text = some e := by
  have standing := h.standing (Nat.le_refl _)
  have read := readExpr_of_standing standing (ends_nil 0)
  rw [List.append_nil] at read
  rw [read?, spelled, read]

/-! ## What an emitted text is worth

`Denotes text cls ℓ v` says all that a translation rule needs to know of the
text of an operand: it is a canonical C++ expression of level `ℓ` or tighter,
its number is `v`, and where the inferred class is floating point the C++ type
is too.  The last part is what keeps quotients whole: the rules for divisions
look at the inferred class and C++ looks at its own.

The lemmas put such texts together, one for each way in which a rule does it. -/

/-- The text reads as an expression of level `ℓ` or tighter that is worth `v` and is of
floating-point type if `cls` is. -/
def Denotes (floating : String → Bool) (text : String) (cls : StorageClass) (ℓ : Nat)
    (v : Env → Option ℚ) : Prop :=
  ∃ e : Expr, text.toList = e.spelled ∧ e.Canonical ∧ ℓ ≤ e.level
    ∧ (cls = .float → e.isFloating floating) ∧ ∀ env, e.value floating env = v env

section Denotes

variable {floating : String → Bool} {text text' : String} {cls cls' : StorageClass} {ℓ m : Nat}
  {v v' : Env → Option ℚ}

theorem Denotes.mono (h : Denotes floating text cls m v) (le : ℓ ≤ m) :
    Denotes floating text cls ℓ v := by
  obtain ⟨e, spelled, canonical, level, typed, value⟩ := h
  exact ⟨e, spelled, canonical, Nat.le_trans le level, typed, value⟩

/-- Only the floating-point class says anything about the type. -/
theorem Denotes.withClass (h : Denotes floating text cls ℓ v)
    (weaker : cls' = .float → cls = .float) : Denotes floating text cls' ℓ v := by
  obtain ⟨e, spelled, canonical, level, typed, value⟩ := h
  exact ⟨e, spelled, canonical, level, fun float => typed (weaker float), value⟩

theorem Denotes.congr (h : Denotes floating text cls ℓ v) (same : ∀ env, v env = v' env) :
    Denotes floating text cls ℓ v' := by
  obtain ⟨e, spelled, canonical, level, typed, value⟩ := h
  exact ⟨e, spelled, canonical, level, typed, fun env => (value env).trans (same env)⟩

/-! ## Primaries -/

theorem denotes_int {s : String} (spells : LiteralKind.int.spells s)
    (plain : Token.hasLeadingZero s.toList = false) :
    Denotes floating s .int 2 fun _ => some (Token.decimal s.toList) :=
  ⟨.int s, rfl, .int spells plain, Nat.le_refl 2, nofun, fun _ => rfl⟩

theorem denotes_float {s : String} (spells : LiteralKind.float.spells s) :
    Denotes floating s .float 2 fun _ => some (Token.decimal s.toList) :=
  ⟨.float s, rfl, .float spells, Nat.le_refl 2, fun _ => rfl, fun _ => rfl⟩

theorem denotes_name {x : String} (name : isName x) (typed : cls = .float → floating x) :
    Denotes floating x cls 2 fun env => some (env.value x) :=
  ⟨.name x, rfl, .name name, Nat.le_refl 2, typed, fun _ => rfl⟩

/-- An integer literal is made a floating-point one. -/
theorem denotes_tenths {s : String} (spells : LiteralKind.int.spells s) :
    Denotes floating (s ++ ".0") .float 2 fun _ => some (Token.decimal s.toList) := by
  have digits := (Token.all_isDigit_of_int (eq_of_beq spells)).2
  have letters : (s ++ ".0").toList = s.toList ++ ['.', '0'] := String.toList_append ..
  refine (denotes_float (LiteralKind.spells_tenths spells)).congr fun env => ?_
  rw [letters, Token.decimal_tenths digits]

theorem denotes_one : Denotes floating "1.0" .float 2 fun _ => some 1 :=
  (denotes_float (by decide +kernel)).congr fun _ => by decide +kernel

theorem Denotes.paren (h : Denotes floating text cls ℓ v) :
    Denotes floating ("(" ++ text ++ ")") cls 2 v := by
  obtain ⟨e, spelled, canonical, -, typed, value⟩ := h
  refine ⟨.paren e, ?_, .paren canonical, Nat.le_refl 2, typed, value⟩
  simp [Expr.spelled, spelled]

theorem Denotes.pow (base : Denotes floating text cls ℓ v) (exponent : Denotes floating text' cls' m v')
    (c : StorageClass) :
    Denotes floating ("std::pow(" ++ text ++ ", " ++ text' ++ ")") c 2
      fun env => combined env.power (v env) (v' env) := by
  obtain ⟨e, spelled, canonical, -, -, value⟩ := base
  obtain ⟨e', spelled', canonical', -, -, value'⟩ := exponent
  refine ⟨.pow e e', ?_, .pow canonical canonical', Nat.le_refl 2, fun _ => rfl, fun env => ?_⟩
  · simp [Expr.spelled, callTail, comma, spelled, spelled']
  · rw [Expr.value, value, value']

/-! ## Operators -/

theorem StorageClass.max_eq_float {a b : StorageClass} (h : max a b = .float) :
    a = .float ∨ b = .float := by
  cases a <;> cases b <;> first | exact .inl rfl | exact .inr rfl | cases h

/-- Two operands with an operator between them; a quotient must have an operand of
floating-point type. -/
theorem Denotes.binary (op : Op) (left : Denotes floating text cls op.level v)
    (right : Denotes floating text' cls' (op.level + 1) v')
    (whole : op = .div → cls = .float ∨ cls' = .float) :
    Denotes floating (text ++ String.singleton op.symbol ++ text') (max cls cls') op.level
      fun env => combined (op.apply true) (v env) (v' env) := by
  obtain ⟨e, spelled, canonical, level, typed, value⟩ := left
  obtain ⟨e', spelled', canonical', level', typed', value'⟩ := right
  have float : cls = .float ∨ cls' = .float → (Expr.binary op e e').isFloating floating := by
    intro either
    rw [Expr.isFloating, Bool.or_eq_true]
    exact either.imp typed typed'
  refine ⟨.binary op e e', ?_, .binary canonical level canonical' level', Nat.le_refl _, ?_,
    fun env => ?_⟩
  · simp [Expr.spelled, spelled, spelled']
  · exact fun max => float (StorageClass.max_eq_float max)
  · rw [Expr.value, value, value']
    cases op with
    | div => rw [float (whole rfl)]
    | _ => rfl

end Denotes

/-! ## Lines -/

theorem no_newline_of_isName {x : String} (h : isName x) : '\n' ∉ x.toList := by
  intro mem
  unfold isName at h
  cases letters : x.toList with
  | nil => simp [letters] at h
  | cons c cs =>
    rw [letters] at h mem
    simp only [Bool.and_eq_true] at h
    obtain ⟨⟨start, rest⟩, -⟩ := h
    rcases List.mem_cons.mp mem with rfl | mem
    · cases start
    · cases List.all_eq_true.mp rest _ mem

theorem no_newline_of_numeral {s : String} {kind : Token.NumberKind}
    (h : Token.numberAt? s.toList = some (kind, s.toList.length)) (real : kind ≠ .imag) :
    '\n' ∉ s.toList := fun mem => by
  cases List.all_eq_true.mp (Token.all_isNumeral h real) _ mem

/-- A canonical expression stands on one line. -/
theorem Expr.Canonical.no_newline {e : Expr} (h : e.Canonical) : '\n' ∉ e.spelled := by
  induction h with
  | int spells => exact no_newline_of_numeral (eq_of_beq spells) nofun
  | float spells => exact no_newline_of_numeral (eq_of_beq spells) nofun
  | name name => exact no_newline_of_isName name
  | paren _ ih => simpa [Expr.spelled] using ih
  | @binary op _ _ _ _ _ _ left right =>
    have symbol : '\n' ≠ op.symbol := by cases op <;> decide
    simp [Expr.spelled, left, right, symbol]
  | pow _ _ base exponent => simp [Expr.spelled, callTail, comma, base, exponent]

end MatrixScript.Cpp
