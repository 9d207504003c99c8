/-
# `Proofs.Cpp.Selected` — what is emitted for the arguments of a subscript

`Argument.selector` is the argument of the target language that is emitted for one of
the script.  It stands for the same positions, counted from zero
(`Program.positions?_selector`), and is read back from its text
(`Program.canonical_selector`).  A literal that fits into 64 bits is folded; all others
are emitted as they are written, and stand for themselves if no zero is in front.
-/
import MatrixScript.Proofs.Cpp.Subscript
import MatrixScript.Proofs.Text.Lines
import MatrixScript.Tree

namespace MatrixScript

/-! ## What is emitted -/

namespace Program

/-- What stands for a bound of a variable along an axis, counted from one. -/
def Bound.sum (x : String) (axis : Nat) : Bound → Cpp.Sum
  | .literal s => .term (.numeral s.toList)
  | .last => .term (.extent x axis)
  | .shifted op b s => .shifted op (b.sum x axis) (.numeral s.toList)

/-- The sum less one. -/
def pred (s : Cpp.Sum) : Cpp.Sum := .shifted .minus s (.numeral ['1'])

/-- A number less one. -/
def predNumeral : Nat → Cpp.Term
  | 0 => .negative ['1']
  | n + 1 => .numeral (toString n).toList

/-- What stands for a bound counted from zero; a literal that fits is folded. -/
def Bound.index (x : String) (axis : Nat) : Bound → Cpp.Sum
  | .literal s =>
      match Node.integer? s.toList with
      | some v => .term (predNumeral v.toNat)
      | none => pred (.term (.numeral s.toList))
  | b => pred (b.sum x axis)

/-- What stands for a step. -/
def stepTerm (negated : Bool) (step : String) : Cpp.Term :=
  if negated then .negated step.toList else .numeral step.toList

/-- What stands for an argument. -/
def Argument.selector (x : String) (axis : Nat) : Argument → Cpp.Selector
  | .bound b => .point (b.index x axis)
  | .all => .uspan (.term (.numeral ['0'])) (pred (.term (.extent x axis)))
  | .range start stop => .span (start.index x axis) (stop.index x axis)
  | .stepped start negated step stop =>
      .stepped (start.index x axis) (.term (stepTerm negated step)) (stop.index x axis)

/-- What an argument gives by itself: a bound is shifted by the subscript around it. -/
def Argument.text (x : String) (axis : Nat) : Argument → List Char
  | .bound b => (b.sum x axis).spelled
  | a => (a.selector x axis).spelled

/-! ### What it is worth -/

/-- No zero stands in front of a literal that is emitted as it is written. -/
def Plain (digits : String) : Prop := Token.hasLeadingZero digits.toList = false

/-- The literals of a sum are decimal ones. -/
def Bound.Decimal : Bound → Prop
  | .literal s => Plain s
  | .last => True
  | .shifted _ b s => b.Decimal ∧ Plain s

/-- A literal that is folded may be written in any way. -/
def Bound.Plain : Bound → Prop
  | .literal s => (Node.integer? s.toList).isSome ∨ Program.Plain s
  | b => b.Decimal

/-- All literals that are emitted as they are written are decimal ones. -/
def Argument.Plain : Argument → Prop
  | .bound b => b.Plain
  | .all => True
  | .range start stop => start.Plain ∧ stop.Plain
  | .stepped start _ step stop => start.Plain ∧ Program.Plain step ∧ stop.Plain

instance (digits : String) : Decidable (Plain digits) :=
  inferInstanceAs (Decidable (Token.hasLeadingZero digits.toList = false))

instance Bound.decidableDecimal : (b : Bound) → Decidable b.Decimal
  | .literal s => inferInstanceAs (Decidable (Program.Plain s))
  | .last => inferInstanceAs (Decidable True)
  | .shifted _ b s =>
      have := b.decidableDecimal
      inferInstanceAs (Decidable (b.Decimal ∧ Program.Plain s))

instance (b : Bound) : Decidable b.Plain :=
  match b with
  | .literal s => inferInstanceAs (Decidable ((Node.integer? s.toList).isSome ∨ Program.Plain s))
  | .last => inferInstanceAs (Decidable (Bound.Decimal .last))
  | .shifted op b s => inferInstanceAs (Decidable (Bound.Decimal (.shifted op b s)))

instance (a : Argument) : Decidable a.Plain :=
  match a with
  | .bound b => inferInstanceAs (Decidable b.Plain)
  | .all => inferInstanceAs (Decidable True)
  | .range start stop => inferInstanceAs (Decidable (start.Plain ∧ stop.Plain))
  | .stepped start _ step stop =>
      inferInstanceAs (Decidable (start.Plain ∧ Program.Plain step ∧ stop.Plain))

/-- A literal that is one token. -/
def Digits (s : String) : Prop := s.toList ≠ [] ∧ s.toList.all Char.isDigit

/-- All literals are tokens. -/
def Bound.Spelled : Bound → Prop
  | .literal s => Digits s
  | .last => True
  | .shifted _ b s => b.Spelled ∧ Digits s

/-- All literals are tokens. -/
def Argument.Spelled : Argument → Prop
  | .bound b => b.Spelled
  | .all => True
  | .range start stop => start.Spelled ∧ stop.Spelled
  | .stepped start _ step stop => start.Spelled ∧ Digits step ∧ stop.Spelled

section Values

theorem toList_toString (n : Nat) : (toString n).toList = Nat.toDigits 10 n := by
  rw [Nat.toString_eq_ofList_toDigits, String.toList_ofList]

/-- Numbers are written without a zero in front. -/
theorem plain_toString (n : Nat) : Plain (toString n) := by
  have head : ∀ n, 0 < n → (Nat.toDigits 10 n).head? ≠ some '0' := by
    intro n
    induction n using Nat.strong_induction_on with
    | _ n ih =>
      intro positive
      rw [Nat.toDigits_eq_if (by decide)]
      split
      case isTrue small =>
        have digits : ∀ k < 10, 0 < k → [Nat.digitChar k].head? ≠ some '0' := by decide
        exact digits n small positive
      case isFalse large =>
        have rest := ih (n / 10) (by omega) (by omega)
        obtain ⟨c, cs, eq⟩ := List.exists_cons_of_ne_nil (Nat.toDigits_ne_nil (n := n / 10) (b := 10))
        rw [eq] at rest ⊢
        exact rest
  rw [Plain, toList_toString]
  by_cases zero : n = 0
  · rw [zero]
    rfl
  · have first := head n (Nat.pos_of_ne_zero zero)
    unfold Token.hasLeadingZero
    split
    · rename_i eq
      rw [eq] at first
      exact absurd rfl first
    · rfl

theorem digits_toString (n : Nat) : Digits (toString n) := by
  rw [Digits, toList_toString]
  exact ⟨Nat.toDigits_ne_nil, List.all_eq_true.mpr fun c mem =>
    Nat.isDigit_of_mem_toDigits (b := 10) (by decide) (by decide) mem⟩

theorem integer?_plain {s : String} (plain : Plain s) :
    Cpp.integer? s.toList = some (Text.digitsValue s.toList : ℤ) := by
  have decimal : Token.hasLeadingZero s.toList = false := plain
  rw [Cpp.integer?, decimal]
  rfl

theorem integer?_toString (n : Nat) : Cpp.integer? (toString n).toList = some (n : ℤ) := by
  rw [integer?_plain (plain_toString n), toList_toString]
  exact congrArg (fun m : Nat => some (m : ℤ)) Nat.ofDigitChars_ten_toDigits

/-- A literal that fits is folded to its number. -/
theorem integer?_literal {s : String} (digits : Digits s) {v : ℤ}
    (found : Node.integer? s.toList = some v) : v = Text.digitsValue s.toList := by
  obtain ⟨c, cs, letters⟩ := List.exists_cons_of_ne_nil digits.1
  have natural : Text.natural? s.toList = some (Text.digitsValue s.toList) := by
    rw [Text.natural?, if_neg]
    simp [digits.1, digits.2]
  unfold Node.integer? at found
  obtain ⟨value, -⟩ := Option.filter_eq_some_iff.mp found
  have digit : c.isDigit := by
    have all := digits.2
    rw [letters] at all
    exact (Bool.and_eq_true _ _ |>.mp all).1
  split at value
  case h_1 eq =>
    rw [letters] at eq
    obtain rfl := (List.cons.inj eq).1
    cases digit
  case h_2 eq =>
    rw [letters] at eq
    obtain rfl := (List.cons.inj eq).1
    cases digit
  case h_3 =>
    rw [natural] at value
    exact (Option.some.inj value).symm

variable {extents : String → Nat → ℤ} {x : String} {axis : Nat}

theorem value?_sum {b : Bound} (plain : b.Decimal) :
    (b.sum x axis).value? extents = some (b.position (extents x axis)) := by
  induction b with
  | literal s => exact integer?_plain plain
  | last => rfl
  | shifted op b s ih =>
    simp only [Bound.sum, Cpp.Sum.value?, Cpp.Term.value?, ih plain.1, integer?_plain plain.2]
    rfl

theorem value?_pred {s : Cpp.Sum} {v : ℤ} (value : s.value? extents = some v) :
    (pred s).value? extents = some (v - 1) := by
  simp only [pred, Cpp.Sum.value?, value]
  rfl

theorem value?_predNumeral (n : Nat) : (predNumeral n).value? extents = some ((n : ℤ) - 1) := by
  cases n with
  | zero => rfl
  | succ n =>
    show Cpp.integer? (toString n).toList = _
    rw [integer?_toString, Nat.cast_succ, add_sub_cancel_right]

/-- A bound is emitted counted from zero. -/
theorem value?_index {b : Bound} (spelled : b.Spelled) (plain : b.Plain) :
    (b.index x axis).value? extents = some (b.position (extents x axis) - 1) := by
  cases b with
  | literal s =>
    show (match Node.integer? s.toList with
      | some v => Cpp.Sum.term (predNumeral v.toNat)
      | none => pred (.term (.numeral s.toList))).value? extents = _
    cases found : Node.integer? s.toList with
    | some v =>
      have value := integer?_literal spelled found
      subst value
      exact value?_predNumeral _
    | none =>
      refine value?_pred (integer?_plain (plain.resolve_left fun fits => ?_))
      rw [found] at fits
      cases fits
  | last => exact value?_pred (value?_sum plain)
  | shifted op b s => exact value?_pred (value?_sum plain)

theorem value?_stepTerm {negated : Bool} {step : String} (plain : Plain step) :
    (stepTerm negated step).value? extents = some (stepValue negated step) := by
  cases negated with
  | false => exact integer?_plain plain
  | true =>
    show (Cpp.integer? step.toList).map (- ·) = _
    rw [integer?_plain plain]
    rfl

/-- An argument is emitted counted from zero. -/
theorem positions?_selector {a : Argument} (spelled : a.Spelled) (plain : a.Plain) :
    (a.selector x axis).positions? extents
      = some ((a.positions (extents x axis)).map (· - 1)) := by
  cases a with
  | bound b =>
    simp only [Argument.selector, Cpp.Selector.positions?, value?_index spelled plain]
    rfl
  | all =>
    have last : (pred (.term (.extent x axis))).value? extents = some (extents x axis - 1) :=
      value?_pred rfl
    simp only [Argument.selector, Cpp.Selector.positions?, last]
    exact congrArg some (progression_pred 1 1 (extents x axis))
  | range start stop =>
    simp only [Argument.selector, Cpp.Selector.positions?, value?_index spelled.1 plain.1,
      value?_index spelled.2 plain.2]
    exact congrArg some (progression_pred _ 1 _)
  | stepped start negated step stop =>
    have step : (Cpp.Sum.term (stepTerm negated step)).value? extents = some (stepValue negated step) :=
      value?_stepTerm plain.2.1
    simp only [Argument.selector, Cpp.Selector.positions?, value?_index spelled.1 plain.1,
      value?_index spelled.2.2 plain.2.2, step]
    exact congrArg some (progression_pred _ _ _)

end Values

/-! ### Its text is read back -/

section Canonical

variable {x : String} (name : isName x) {axis : Nat} (bound : axis < Cpp.members.length)
include name bound

theorem canonical_sum {b : Bound} (spelled : b.Spelled) : (b.sum x axis).Canonical := by
  induction b with
  | literal s => exact spelled
  | last => exact ⟨name, bound⟩
  | shifted op b s ih => exact ⟨ih spelled.1, spelled.2⟩

theorem canonical_index {b : Bound} (spelled : b.Spelled) : (b.index x axis).Canonical := by
  have one : (Cpp.Term.numeral ['1']).Canonical := ⟨nofun, rfl⟩
  cases b with
  | literal s =>
    show (match Node.integer? s.toList with
      | some v => Cpp.Sum.term (predNumeral v.toNat)
      | none => pred (.term (.numeral s.toList))).Canonical
    split
    case h_1 v _ =>
      cases v.toNat with
      | zero => exact one
      | succ n => exact digits_toString n
    case h_2 => exact ⟨spelled, one⟩
  | last => exact ⟨⟨name, bound⟩, one⟩
  | shifted op b s => exact ⟨canonical_sum name bound spelled, one⟩

theorem canonical_selector {a : Argument} (spelled : a.Spelled) :
    (a.selector x axis).Canonical := by
  cases a with
  | bound b => exact canonical_index name bound spelled
  | all => exact ⟨⟨nofun, rfl⟩, ⟨name, bound⟩, nofun, rfl⟩
  | range start stop =>
    exact ⟨canonical_index name bound spelled.1, canonical_index name bound spelled.2⟩
  | stepped start negated step stop =>
    refine ⟨canonical_index name bound spelled.1, ?_, canonical_index name bound spelled.2.2⟩
    cases negated with
    | false => exact spelled.2.1
    | true => exact spelled.2.1

end Canonical

/-- The text of a chain. -/
theorem text_chain {x : String} {axis : Nat} (op : Shift) (b : Bound) (literals : List String) :
    literals.foldl (fun text next => text ++ String.singleton op.symbol ++ next)
        (String.ofList (b.sum x axis).spelled)
      = String.ofList ((b.chain op literals).sum x axis).spelled := by
  induction literals generalizing b with
  | nil => rfl
  | cons s literals ih =>
    have first : String.ofList (b.sum x axis).spelled ++ String.singleton op.symbol ++ s
        = String.ofList ((Bound.shifted op b s).sum x axis).spelled := by
      apply String.toList_injective
      simp [Bound.sum, Cpp.Sum.spelled, Cpp.Term.spelled]
    rw [List.foldl_cons, first]
    exact ih (.shifted op b s)

/-- With literals added or taken off, nothing is folded. -/
theorem index_chain {x : String} {axis : Nat} (op : Shift) (b : Bound) {literals : List String}
    (some : literals ≠ []) : (b.chain op literals).index x axis = pred ((b.chain op literals).sum x axis) := by
  obtain ⟨init, last, rfl⟩ := List.eq_nil_or_concat'  literals |>.resolve_left some
  rw [Bound.chain, List.foldl_append]
  rfl

theorem toList_joined : ∀ as : List Cpp.Selector,
    (Text.joined ", " (as.map fun a => String.ofList a.spelled) ++ ")").toList
      = Cpp.spelledArguments as
  | [] => rfl
  | [a] => by
    rw [String.toList_append]
    exact congrArg (· ++ [')']) String.toList_ofList
  | a :: b :: as => by
    have more := toList_joined (b :: as)
    rw [List.map_cons] at more
    rw [List.map_cons, List.map_cons, Text.joined_cons, String.append_assoc, String.append_assoc,
      String.toList_append, String.toList_append, more, String.toList_ofList]
    rfl

theorem toList_pred (s : Cpp.Sum) :
    (String.ofList s.spelled ++ "-1").toList = (pred s).spelled := by
  rw [String.toList_append, String.toList_ofList]
  rfl

end Program

end MatrixScript
