/-
# `Proofs.Cpp.Truncation` — quotients that C++ cuts to integers

The type of a C++ expression of scalars is integral or floating point (`Cpp.Floating`).  An
arithmetic operator takes the wider type of its operands, `std::pow` is of floating point, and
comparisons and logic are truth values, which are integral whatever is compared.  A quotient of
two integral operands is cut to an integer (`Cpp.Truncates`).

Both are said of an expression as C++ groups it.  For a text that is read as it is put together
they can be computed from how that is done (`Cpp.Assembly.truncates_iff`).
-/
import MatrixScript.Proofs.Cpp.Name

namespace MatrixScript.Cpp

/-! ## Types of expressions -/

/-- The result is of the wider type of the operands. -/
def Operator.isArithmetic : Operator → Bool
  | .add | .sub | .mul | .div => true
  | _ => false

/-- The expression is of floating-point type, if the variables are that `floating` holds of. -/
inductive Floating (floating : String → Bool) : Grouping → Prop
  | name {x : String} : isName x → floating x → Floating floating (.operand [x])
  | numeral {s : String} : LiteralKind.float.spells s → Floating floating (.operand [s])
  | parens {text : String} {g : Grouping} : group? text = some g → Floating floating g →
      Floating floating (.operand ["(" ++ text ++ ")"])
  | power {arguments : String} : Floating floating (.operand ["std::pow", arguments])
  | sign {c : Char} {e : Grouping} : c ≠ '!' → Floating floating e → Floating floating (.sign c e)
  | left {op : Operator} {l r : Grouping} : op.isArithmetic → Floating floating l →
      Floating floating (.binary op l r)
  | right {op : Operator} {l r : Grouping} : op.isArithmetic → Floating floating r →
      Floating floating (.binary op l r)

/-- Somewhere in the expression two operands of integral type are divided. -/
inductive Truncates (floating : String → Bool) : Grouping → Prop
  | here {l r : Grouping} : ¬Floating floating l → ¬Floating floating r →
      Truncates floating (.binary .div l r)
  | parens {text : String} {g : Grouping} : group? text = some g → Truncates floating g →
      Truncates floating (.operand ["(" ++ text ++ ")"])
  | argument {f text a : String} {items : List String} {g : Grouping} :
      items? text.toList = some items → a ∈ items → group? a = some g → Truncates floating g →
      Truncates floating (.operand [f, "(" ++ text ++ ")"])
  | sign {c : Char} {e : Grouping} : Truncates floating e → Truncates floating (.sign c e)
  | left {op : Operator} {l r : Grouping} : Truncates floating l →
      Truncates floating (.binary op l r)
  | right {op : Operator} {l r : Grouping} : Truncates floating r →
      Truncates floating (.binary op l r)

/-- C++ cuts a quotient in the text to an integer. -/
def Cuts (floating : String → Bool) (text : String) : Prop :=
  ∃ g, group? text = some g ∧ Truncates floating g

/-! ## Parentheses are no leaves -/

theorem toList_parens (text : String) : ("(" ++ text ++ ")").toList = '(' :: (text.toList ++ [')']) := by
  simp

theorem not_isName_parens (text : String) : isName ("(" ++ text ++ ")") = false := by
  unfold isName
  rw [toList_parens]
  rfl

theorem numberAt?_parens (text : String) : Token.numberAt? ("(" ++ text ++ ")").toList = none := by
  cases number : Token.numberAt? ("(" ++ text ++ ")").toList with
  | none => rfl
  | some found =>
    rw [toList_parens] at number
    exact absurd (Token.numberAt?_head number) (by decide)

theorem not_spells_parens (text : String) : LiteralKind.float.spells ("(" ++ text ++ ")") = false := by
  show (Token.numberAt? _ == some (Token.NumberKind.float, _)) = false
  rw [numberAt?_parens]
  rfl

theorem parens_injective {text text' : String} (same : "(" ++ text ++ ")" = "(" ++ text' ++ ")") :
    text = text' := by
  have letters := congrArg String.toList same
  rw [toList_parens, toList_parens, List.cons.injEq] at letters
  exact String.toList_injective (List.append_cancel_right letters.2)

/-! ## Types and quotients of groups -/

section

variable {floating : String → Bool} {text inner : String} {g l r : Grouping} {op : Operator} {c : Char}

theorem floating_word_iff (other : ∀ inner, text ≠ "(" ++ inner ++ ")") :
    Floating floating (.operand [text])
      ↔ (isName text ∧ floating text) ∨ LiteralKind.float.spells text := by
  constructor
  · intro h
    generalize list : [text] = parts at h
    cases h with
    | name name floats =>
      cases list
      exact .inl ⟨name, floats⟩
    | numeral spells =>
      cases list
      exact .inr spells
    | parens => exact absurd (List.cons.inj list).1 (other _)
    | power => cases (List.cons.inj list).2
  · rintro (⟨name, floats⟩ | spells)
    · exact .name name floats
    · exact .numeral spells

theorem floating_parens_iff (group : group? inner = some g) :
    Floating floating (.operand ["(" ++ inner ++ ")"]) ↔ Floating floating g := by
  constructor
  · intro h
    generalize list : ["(" ++ inner ++ ")"] = parts at h
    cases h with
    | name name =>
      cases list
      rw [not_isName_parens] at name
      cases name
    | numeral spells =>
      cases list
      rw [not_spells_parens] at spells
      cases spells
    | parens there floats =>
      rw [← parens_injective (List.cons.inj list).1, group] at there
      cases there
      exact floats
    | power => cases (List.cons.inj list).2
  · exact fun floats => .parens group floats

theorem floating_sign_iff (minus : c ≠ '!') : Floating floating (.sign c g) ↔ Floating floating g := by
  constructor
  · rintro (_ | _ | _ | _ | ⟨-, floats⟩)
    exact floats
  · exact fun floats => .sign minus floats

theorem floating_binary_iff : Floating floating (.binary op l r)
    ↔ op.isArithmetic ∧ (Floating floating l ∨ Floating floating r) := by
  constructor
  · intro h
    cases h with
    | left arithmetic floats => exact ⟨arithmetic, .inl floats⟩
    | right arithmetic floats => exact ⟨arithmetic, .inr floats⟩
  · rintro ⟨arithmetic, floats | floats⟩
    · exact .left arithmetic floats
    · exact .right arithmetic floats

theorem not_truncates_word (other : ∀ inner, text ≠ "(" ++ inner ++ ")") :
    ¬Truncates floating (.operand [text]) := by
  intro h
  generalize list : [text] = parts at h
  cases h with
  | parens => exact other _ (List.cons.inj list).1
  | argument => cases (List.cons.inj list).2

theorem truncates_parens_iff (group : group? inner = some g) :
    Truncates floating (.operand ["(" ++ inner ++ ")"]) ↔ Truncates floating g := by
  constructor
  · intro h
    generalize list : ["(" ++ inner ++ ")"] = parts at h
    cases h with
    | parens there cut =>
      rw [← parens_injective (List.cons.inj list).1, group] at there
      cases there
      exact cut
    | argument => cases (List.cons.inj list).2
  · exact fun cut => .parens group cut

/-- An argument of a call is cut. -/
theorem truncates_call_iff {f : String} {items : List String}
    (list : items? inner.toList = some items) :
    Truncates floating (.operand [f, "(" ++ inner ++ ")"]) ↔ ∃ a ∈ items, Cuts floating a := by
  constructor
  · intro h
    generalize parts : [f, "(" ++ inner ++ ")"] = found at h
    cases h with
    | parens => cases (List.cons.inj parts).2
    | @argument _ _ a _ g there mem group cut =>
      obtain ⟨-, tail⟩ := List.cons.inj parts
      rw [← parens_injective (List.cons.inj tail).1, list] at there
      cases there
      exact ⟨a, mem, g, group, cut⟩
  · rintro ⟨a, mem, g, group, cut⟩
    exact .argument list mem group cut

theorem truncates_sign_iff : Truncates floating (.sign c g) ↔ Truncates floating g := by
  constructor
  · rintro (_ | _ | _ | ⟨cut⟩)
    exact cut
  · exact fun cut => .sign cut

theorem truncates_binary_iff : Truncates floating (.binary op l r)
    ↔ ((op = .div ∧ ¬Floating floating l) ∧ ¬Floating floating r ∨ Truncates floating l)
      ∨ Truncates floating r := by
  constructor
  · intro h
    cases h with
    | here left right => exact .inl (.inl ⟨⟨rfl, left⟩, right⟩)
    | left cut => exact .inl (.inr cut)
    | right cut => exact .inr cut
  · rintro ((⟨⟨rfl, left⟩, right⟩ | cut) | cut)
    · exact .here left right
    · exact .left cut
    · exact .right cut

end

/-! ## What the parts of a text tell -/

namespace Assembly

/-- The expression is of floating-point type. -/
def isFloating (floating : String → Bool) : Assembly → Bool
  | whole text => (isName text && floating text) || LiteralKind.float.spells text
  | parens e | negated e => e.isFloating floating
  | call f _ => f.name == "std::pow"
  | binary op _ left right => op.isArithmetic && (left.isFloating floating || right.isFloating floating)
  | braces _ | applied _ _ | member _ _ => false

mutual

/-- Somewhere in the expression two operands of integral type are divided. -/
def truncates (floating : String → Bool) : Assembly → Bool
  | parens e | negated e => e.truncates floating
  | call _ items => truncatesAny floating items
  | binary op _ left right =>
      (decide (op = .div) && !left.isFloating floating && !right.isFloating floating)
        || left.truncates floating || right.truncates floating
  | whole _ | braces _ | applied _ _ | member _ _ => false

def truncatesAny (floating : String → Bool) : List Assembly → Bool
  | [] => false
  | e :: es => e.truncates floating || truncatesAny floating es

end

theorem truncatesAny_iff {floating : String → Bool} {es : List Assembly} :
    truncatesAny floating es ↔ ∃ e ∈ es, e.truncates floating := by
  induction es with
  | nil => simp [truncatesAny]
  | cons e es ih => simp [truncatesAny, ih]

/-- Names and numerals with parentheses, minus signs, operators and powers. -/
inductive Scalar : Assembly → Prop
  | name {x : String} : isName x → Scalar (whole x)
  | numeral {s : String} {kind : Token.NumberKind} :
      Token.numberAt? s.toList = some (kind, s.toList.length) → kind ≠ .imag → Scalar (whole s)
  | parens {e : Assembly} : Scalar e → Scalar (parens e)
  | negated {e : Assembly} : Scalar e → Scalar (negated e)
  | power {f : Callee} {items : List Assembly} : f.name = "std::pow" → (∀ e ∈ items, Scalar e) →
      Scalar (call f items)
  | binary {op : Operator} {spaced : Bool} {left right : Assembly} : Scalar left → Scalar right →
      Scalar (binary op spaced left right)

theorem Scalar.int {s : String} (spells : LiteralKind.int.spells s) : (whole s).Scalar :=
  .numeral (eq_of_beq spells) nofun

theorem Scalar.float {s : String} (spells : LiteralKind.float.spells s) : (whole s).Scalar :=
  .numeral (eq_of_beq spells) nofun

variable {floating : String → Bool} {e : Assembly} {g : Grouping}

/-- A leaf is read as one operand, which is no pair of parentheses. -/
theorem Scalar.leaf {text : String} (h : (whole text).Scalar) :
    group? text = some (.operand [text]) ∧ ∀ inner, text ≠ "(" ++ inner ++ ")" := by
  cases h with
  | name name =>
    refine ⟨group?_name name, fun inner eq => ?_⟩
    rw [eq, not_isName_parens] at name
    cases name
  | numeral number real =>
    refine ⟨group?_numeral number real, fun inner eq => ?_⟩
    rw [eq, numberAt?_parens] at number
    cases number

/-! ## Reading -/

/-- The type of a text that is read as it is put together. -/
theorem isFloating_iff (scalar : e.Scalar) : ∀ {g : Grouping}, e.Read → group? e.spelled = some g →
    (Floating floating g ↔ e.isFloating floating) := by
  have leaf : ∀ {text : String}, (whole text).Scalar → ∀ {g : Grouping}, group? text = some g →
      (Floating floating g ↔ (whole text).isFloating floating) := by
    intro text scalar g eq
    obtain ⟨operand, other⟩ := scalar.leaf
    cases operand.symm.trans eq
    rw [isFloating, Bool.or_eq_true, Bool.and_eq_true]
    exact floating_word_iff other
  induction scalar with
  | name name =>
    intro g _ eq
    rw [spelled] at eq
    exact leaf (.name name) eq
  | numeral number real =>
    intro g _ eq
    rw [spelled] at eq
    exact leaf (.numeral number real) eq
  | @parens e _ ih =>
    intro g read eq
    rw [Read] at read
    obtain ⟨inside, operand⟩ := read
    cases operand.symm.trans eq
    obtain ⟨inner, eq', -⟩ := inside.group?
    rw [isFloating, ← ih inside eq', spelled]
    exact floating_parens_iff eq'
  | @negated e _ ih =>
    intro g read eq
    rw [Read] at read
    obtain ⟨inside, inner, eq', signed⟩ := read
    cases signed.symm.trans eq
    rw [isFloating, ← ih inside eq']
    exact floating_sign_iff (by decide)
  | @power f items name _ _ =>
    intro g read eq
    rw [Read] at read
    obtain ⟨-, -, operand⟩ := read
    cases operand.symm.trans eq
    rw [isFloating, name]
    exact iff_of_true .power rfl
  | @binary op spaced left right _ _ ihl ihr =>
    intro g read eq
    rw [Read] at read
    obtain ⟨readl, readr, l, r, eql, eqr, here⟩ := read
    cases here.symm.trans eq
    rw [isFloating, Bool.and_eq_true, Bool.or_eq_true, ← ihl readl eql, ← ihr readr eqr]
    exact floating_binary_iff

/-- The quotients of a text that is read as it is put together. -/
theorem truncates_iff (scalar : e.Scalar) : ∀ {g : Grouping}, e.Read → group? e.spelled = some g →
    (Truncates floating g ↔ e.truncates floating) := by
  have leaf : ∀ {text : String}, (whole text).Scalar → ∀ {g : Grouping}, group? text = some g →
      (Truncates floating g ↔ (whole text).truncates floating) := by
    intro text scalar g eq
    obtain ⟨operand, other⟩ := scalar.leaf
    cases operand.symm.trans eq
    exact iff_of_false (not_truncates_word other) (by rw [truncates]; exact Bool.false_ne_true)
  induction scalar with
  | name name =>
    intro g _ eq
    rw [spelled] at eq
    exact leaf (.name name) eq
  | numeral number real =>
    intro g _ eq
    rw [spelled] at eq
    exact leaf (.numeral number real) eq
  | @parens e _ ih =>
    intro g read eq
    rw [Read] at read
    obtain ⟨inside, operand⟩ := read
    cases operand.symm.trans eq
    obtain ⟨inner, eq', -⟩ := inside.group?
    rw [truncates, ← ih inside eq', spelled]
    exact truncates_parens_iff eq'
  | @negated e _ ih =>
    intro g read eq
    rw [Read] at read
    obtain ⟨inside, inner, eq', signed⟩ := read
    cases signed.symm.trans eq
    rw [truncates, ← ih inside eq']
    exact truncates_sign_iff
  | @power f items _ _ ih =>
    intro g read eq
    rw [Read] at read
    obtain ⟨all, list, operand⟩ := read
    cases operand.symm.trans eq
    have each := readAll_iff.mp all
    rw [truncates, truncatesAny_iff, arguments, truncates_call_iff list, spelledAll_eq]
    constructor
    · rintro ⟨a, mem, g, eq', cut⟩
      obtain ⟨e, here, rfl⟩ := List.mem_map.mp mem
      exact ⟨e, here, (ih e here (each e here) eq').mp cut⟩
    · rintro ⟨e, here, cut⟩
      obtain ⟨g, eq', -⟩ := (each e here).group?
      exact ⟨_, List.mem_map_of_mem here, g, eq', (ih e here (each e here) eq').mpr cut⟩
  | @binary op spaced left right scalarl scalarr ihl ihr =>
    intro g read eq
    rw [Read] at read
    obtain ⟨readl, readr, l, r, eql, eqr, here⟩ := read
    cases here.symm.trans eq
    have floatl : Floating floating l ↔ _ := isFloating_iff scalarl readl eql
    have floatr : Floating floating r ↔ _ := isFloating_iff scalarr readr eqr
    rw [truncates, Bool.or_eq_true, Bool.or_eq_true, ← ihl readl eql, ← ihr readr eqr]
    simp only [Bool.and_eq_true, decide_eq_true_eq, Bool.not_eq_true', ← Bool.not_eq_true, ← floatl, ← floatr]
    exact truncates_binary_iff

/-- Whether C++ cuts a quotient of a text that is read as it is put together. -/
theorem cuts_iff (scalar : e.Scalar) (read : e.Read) : Cuts floating e.spelled ↔ e.truncates floating := by
  obtain ⟨g, eq, -⟩ := read.group?
  rw [← truncates_iff scalar read eq]
  constructor
  · rintro ⟨g', eq', cut⟩
    cases eq.symm.trans eq'
    exact cut
  · exact fun cut => ⟨g, eq, cut⟩

end Assembly

end MatrixScript.Cpp
