/-
# `Proofs.Rule.Pasted` — built-ins that paste their arguments

`and` is written as a product, `or` as a sum of squares, `not` as a comparison with zero,
rounding to places as a product with powers of ten, and the unit matrix of a size takes two
elements of its argument.  The arguments stand bare in these texts.  `pastedCall?` is how
each of them is put together, and `writes_pastedCall` says that the rules write that.
-/
import MatrixScript.Proofs.Cpp.Assembly
import MatrixScript.Proofs.Rule.Solid

namespace MatrixScript

open Cpp (Assembly Operator Callee Tight)
open Cpp.Assembly (whole parens call applied negated binary)

/-! ## Chains -/

namespace Cpp.Assembly

/-- Operands from left to right with an operator in the gaps. -/
def chain (op : Operator) (e : Assembly) (es : List Assembly) : Assembly :=
  es.foldl (binary op false) e

variable {op : Operator}

theorem spelled_chain (e : Assembly) (es : List Assembly) :
    (chain op e es).spelled = Text.joined op.symbol (e.spelled :: es.map spelled) := by
  rw [joined_cons, List.foldl_map]
  exact (List.foldl_hom spelled fun e x => by rw [spelled]).symm

theorem level_chain (e : Assembly) (es : List Assembly) :
    (chain op e es).level = if es = [] then e.level else op.level := by
  induction es generalizing e with
  | nil => rfl
  | cons x xs ih =>
    rw [chain, List.foldl_cons, ← chain, ih]
    cases xs with
    | nil => rfl
    | cons => rfl

/-- Operands from left to right are not looser than the operator, and tighter behind it. -/
theorem fits_chain {e : Assembly} {es : List Assembly} :
    (chain op e es).Fits ↔ (es ≠ [] → op.level ≤ e.level) ∧ e.Fits
      ∧ ∀ x ∈ es, op.level < x.level ∧ op.fusesWith x.spelled = false ∧ x.Fits := by
  induction es generalizing e with
  | nil => simp [chain]
  | cons x es ih =>
    have front : (binary op false e x).level = op.level := rfl
    rw [chain, List.foldl_cons, ← chain, ih, front, Fits, List.forall_mem_cons]
    simp only [ne_eq, List.cons_ne_nil, not_false_eq_true, le_refl, implies_true, true_and,
      forall_const]
    constructor
    · rintro ⟨⟨le, lt, apart, fits, fits'⟩, rest⟩
      exact ⟨le, fits, ⟨lt, apart, fits'⟩, rest⟩
    · rintro ⟨le, fits, ⟨lt, apart, fits'⟩, rest⟩
      exact ⟨⟨le, lt, apart, fits, fits'⟩, rest⟩

end Cpp.Assembly

namespace Template

variable {node : Node} {front tail : String}

/-- A pattern with the first operand within it. -/
theorem render_around (start : '%' ∉ front.toList) (stop : '%' ∉ tail.toList) (text : String)
    (rest : List String) :
    (format (front ++ ("%(0)s" ++ tail))).render node (text :: rest) = front ++ (text ++ tail) := by
  rw [render_format_append start, render_operand, render_fixed stop]

end Template

namespace Rule

/-- The rule answers, and with this text. -/
def Writes (rule : Rule) (s : Site) (text : String) : Prop :=
  ∃ o, rule s = .ok o ∧ s.written o = text

/-- What a rule writes is what it answers. -/
theorem Writes.written {rule : Rule} {s : Site} {o : Outcome} {text : String} (h : Writes rule s text)
    (ok : rule s = .ok o) : s.written o = text := by
  obtain ⟨o', ok', written⟩ := h
  cases ok.symm.trans ok'
  exact written

/-! ## Calls -/

/-- Power of the number of places. -/
def powerOfTen (e : Assembly) : Assembly := call ⟨"std::pow", by decide⟩ [whole "10", e]

/-- Rounding in the library for a shape. -/
def rounding (shape : Shape) : Callee where
  name := BuiltinRule.library shape ++ "::round"
  callable := by
    unfold BuiltinRule.library
    split
    · decide
    · decide

/-- A number to a number of decimal places. -/
def toPlaces (shape : Shape) (x n : String) : Assembly :=
  binary .mul false (call (rounding shape) [binary .mul false (whole x) (powerOfTen (whole n))])
    (powerOfTen (negated (whole n)))

def square (x : String) : Assembly := binary .mul false (whole x) (whole x)

/-- An element of a vector. -/
def element (v i : String) : Assembly := applied (whole v) [whole i]

/-- How `round` of a number is put together. -/
def roundedCall (x : Operand) (places : Option Operand) : Assembly :=
  if x.cls.isIntegral then whole x.text
  else
    match places with
    | none => call (rounding x.shape) [whole x.text]
    | some n =>
      if n.node.isInt 0 then call (rounding x.shape) [whole x.text]
      else toPlaces x.shape x.text n.text

/-- How a call that pastes its arguments is put together. -/
def pastedCall? (b : Builtin) (s : Site) : Option Assembly :=
  match b, s.operands with
  | .land, x :: xs => some (parens (.chain .mul (whole x.text) (xs.map fun x => whole x.text)))
  | .lor, x :: xs => some (parens (.chain .add (square x.text) (xs.map fun x => square x.text)))
  | .lnot, [x] =>
    if x.numeric then some (parens (binary .eq true (whole x.text) (whole "0"))) else none
  | .round, [x] => if x.numeric then some (roundedCall x none) else none
  | .round, [x, n] => if x.numeric then some (roundedCall x (some n)) else none
  | .eye, [v] =>
      if v.numeric && v.shape.isVector then
        some (call ⟨"arma::eye<mat>", by decide⟩ [element v.text "0", element v.text "1"])
      else none
  | _, _ => none

/-! ## What the rules write -/

section

variable {s : Site} {b : Builtin} {e : Assembly} {o x n : Operand} {os : List Operand}

theorem select_of_call {rule : Rule} (get : s.node.category = .get)
    (builtin : builtinOf? s.tree s.node = some b) (call : ofCall? b = some rule) :
    select s.tree s.node = rule := by
  have found : (builtinOf? s.tree s.node).bind (ofBuiltin? s.node.category) = some rule := by
    rw [builtin, get]
    exact call
  rw [select, found]

theorem writes_land (operands : s.operands = o :: os) :
    Writes BuiltinRule.land s
      (parens (.chain .mul (whole o.text) (os.map fun x => whole x.text))).spelled := by
  refine ⟨_, rfl, ?_⟩
  rw [Assembly.spelled, Assembly.spelled_chain, List.map_map, Site.written, Template.render,
    texts_of_operands operands]
  rfl

theorem writes_lor (operands : s.operands = o :: os) :
    Writes BuiltinRule.lor s
      (parens (.chain .add (square o.text) (os.map fun x => square x.text))).spelled := by
  refine ⟨_, rfl, ?_⟩
  rw [Assembly.spelled, Assembly.spelled_chain, List.map_map, Site.written, Template.render,
    texts_of_operands operands, List.map_cons, List.map_map]
  rfl

theorem writes_lnot (operands : s.operands = [x]) (numeric : x.numeric) :
    Writes BuiltinRule.lnot s (parens (binary .eq true (whole x.text) (whole "0"))).spelled := by
  have typing : x.node.typing.numeric := numeric
  have answer : BuiltinRule.lnot s = .ok ⟨.format "(%(0)s == 0)", x.node.typing, []⟩ := by
    unfold BuiltinRule.lnot BuiltinRule.ofOne
    rw [operands]
    show negation x.node.typing s = _
    rw [negation, if_pos typing]
    rfl
  have pattern : "(%(0)s == 0)" = "(" ++ ("%(0)s" ++ " == 0)") := rfl
  refine ⟨_, answer, ?_⟩
  rw [Site.written, texts_of_operands operands, pattern,
    Template.render_around (by decide) (by decide)]
  simp [Assembly.spelled, Operator.symbol, String.append_assoc]

theorem written_nearest {typing : Typing} {effects : List Effect}
    (operands : s.operands = x :: os) :
    s.written ⟨BuiltinRule.applied x.shape "round", typing, effects⟩
      = (call (rounding x.shape) [whole x.text]).spelled := by
  have plain : '%' ∉ (BuiltinRule.library x.shape ++ "::" ++ "round" ++ "(").toList := by
    unfold BuiltinRule.library
    split
    · decide
    · decide
  have pattern : BuiltinRule.library x.shape ++ "::" ++ "round" ++ "(%(0)s)"
      = BuiltinRule.library x.shape ++ "::" ++ "round" ++ "(" ++ ("%(0)s" ++ ")") := by
    rw [@String.append_assoc _ "(" _]
    rfl
  rw [Site.written, texts_of_operands operands, BuiltinRule.applied, pattern,
    Template.render_around plain (by decide)]
  apply String.toList_injective
  simp [Assembly.spelled, Assembly.spelledAll, Cpp.call, rounding, Text.joined]

theorem written_toPlaces {typing : Typing} {effects : List Effect}
    (operands : s.operands = [x, n]) :
    s.written ⟨BuiltinRule.roundedToPlaces x.shape, typing, effects⟩
      = (toPlaces x.shape x.text n.text).spelled := by
  have plain : '%' ∉ (BuiltinRule.library x.shape ++ "::round(").toList := by
    unfold BuiltinRule.library
    split
    · decide
    · decide
  have pattern : BuiltinRule.library x.shape ++ "::round(%(0)s*std::pow(10, %(1)s))*std::pow(10, -%(1)s)"
      = BuiltinRule.library x.shape ++ "::round(" ++ ("%(0)s" ++ ("*std::pow(10, "
        ++ ("%(1)s" ++ ("))*std::pow(10, -" ++ ("%(1)s" ++ ")"))))) := by
    rw [String.append_assoc]
    rfl
  rw [Site.written, texts_of_operands operands, BuiltinRule.roundedToPlaces, pattern,
    Template.render_format_append plain, Template.render_operand,
    Template.render_format_append (by decide), List.map_cons, List.map_nil, Template.render_second,
    Template.render_format_append (by decide), Template.render_second,
    Template.render_fixed (by decide)]
  apply String.toList_injective
  simp [toPlaces, powerOfTen, Assembly.spelled, Assembly.spelledAll, Cpp.call, rounding, Text.joined,
    Operator.symbol]

theorem writes_round {places : Option Operand} (operands : s.operands = x :: places.toList)
    (numeric : x.numeric) : Writes BuiltinRule.round s (roundedCall x places).spelled := by
  have typing : (!x.node.typing.numeric) = false := by
    rw [Bool.not_eq_false']
    exact numeric
  have answer : BuiltinRule.round s = BuiltinRule.rounded x places s := by
    unfold BuiltinRule.round
    rw [operands]
    cases places <;> rfl
  unfold Writes
  unfold roundedCall
  rw [answer, BuiltinRule.rounded, typing, if_neg Bool.false_ne_true]
  split
  · refine ⟨_, rfl, ?_⟩
    rw [Site.written, texts_of_operands operands]
    exact Template.render_whole x.text _
  · cases places with
    | none => exact ⟨_, rfl, written_nearest operands⟩
    | some n =>
      dsimp only [Option.all_some]
      split
      · exact ⟨_, rfl, written_nearest operands⟩
      · exact ⟨_, rfl, written_toPlaces operands⟩

theorem writes_eye (operands : s.operands = [x]) (numeric : x.numeric) (vector : x.shape.isVector) :
    Writes BuiltinRule.eye s
      (call ⟨"arma::eye<mat>", by decide⟩ [element x.text "0", element x.text "1"]).spelled := by
  have answer : BuiltinRule.eye s
      = .ok ⟨.format "arma::eye<mat>(%(0)s(0), %(0)s(1))", .of ⟨.matrix, .float⟩, []⟩ := by
    unfold BuiltinRule.eye
    rw [operands]
    dsimp only
    rw [numeric, vector]
    rfl
  have pattern : "arma::eye<mat>(%(0)s(0), %(0)s(1))"
      = "arma::eye<mat>(" ++ ("%(0)s" ++ ("(0), " ++ ("%(0)s" ++ "(1))"))) := rfl
  refine ⟨_, answer, ?_⟩
  rw [Site.written, texts_of_operands operands, pattern, Template.render_format_append (by decide),
    Template.render_operand, Template.render_around (by decide) (by decide)]
  apply String.toList_injective
  simp [element, Assembly.spelled, Assembly.spelledAll, Cpp.call, Cpp.arguments, Text.joined]

/-- Every call that pastes its arguments is written as it is put together. -/
theorem writes_pastedCall (get : s.node.category = .get)
    (builtin : builtinOf? s.tree s.node = some b) (pasted : pastedCall? b s = some e) :
    Writes (select s.tree s.node) s e.spelled := by
  unfold pastedCall? at pasted
  split at pasted
  case h_1 operands =>
    cases pasted
    rw [select_of_call get builtin rfl]
    exact writes_land operands
  case h_2 operands =>
    cases pasted
    rw [select_of_call get builtin rfl]
    exact writes_lor operands
  case h_3 operands =>
    split at pasted
    case isTrue numeric =>
      cases pasted
      rw [select_of_call get builtin rfl]
      exact writes_lnot operands numeric
    case isFalse => cases pasted
  case h_4 operands =>
    split at pasted
    case isTrue numeric =>
      cases pasted
      rw [select_of_call get builtin rfl]
      exact writes_round operands numeric
    case isFalse => cases pasted
  case h_5 operands =>
    split at pasted
    case isTrue numeric =>
      cases pasted
      rw [select_of_call get builtin rfl]
      exact writes_round operands numeric
    case isFalse => cases pasted
  case h_6 operands =>
    split at pasted
    case isTrue vector =>
      cases pasted
      obtain ⟨numeric, vector⟩ := (Bool.and_eq_true _ _).mp vector
      rw [select_of_call get builtin rfl]
      exact writes_eye operands numeric vector
    case isFalse => cases pasted
  case h_7 => cases pasted

end

/-! ## What has to hold together -/

/-- How tight a call that pastes its arguments needs each of them. -/
def ArgumentsTight (b : Builtin) (s : Site) : Prop :=
  match b, s.operands with
  | .land, x :: xs => Tight (if xs = [] then 0 else 7) x.text ∧ ∀ y ∈ xs, Tight 8 y.text
  | .lor, x :: xs =>
    Tight 8 x.text ∧ ∀ y ∈ xs, Tight 8 y.text ∧ Operator.add.fusesWith y.text = false
  | .lnot, [x] => Tight 4 x.text
  | .round, [x] => Tight 0 x.text
  | .round, [x, n] =>
      if x.cls.isIntegral || n.node.isInt 0 then Tight 0 x.text
      else Tight 7 x.text ∧ Tight 8 n.text ∧ Operator.sub.fusesWith n.text = false
  | .eye, [v] => Tight 9 v.text
  | _, _ => True

/-- Rounding leaves a call, or one operand as it is. -/
def StandsAlone (b : Builtin) (s : Site) : Prop :=
  match b, s.operands with
  | .round, [x] => x.cls.isIntegral → Tight 9 x.text
  | .round, [x, n] => if x.cls.isIntegral then Tight 9 x.text else n.node.isInt 0
  | _, _ => True

section

variable {s : Site} {b : Builtin} {e : Assembly} {x : Operand} {text : String}

theorem fits_conjunction {xs : List Operand} :
    (parens (.chain .mul (whole x.text) (xs.map fun x => whole x.text))).Fits
      ↔ Tight (if xs = [] then 0 else 7) x.text ∧ ∀ y ∈ xs, Tight 8 y.text := by
  have apart : ∀ text, Operator.mul.fusesWith text = false :=
    Operator.fusesWith_eq_false (by decide) (by decide)
  rw [Assembly.Fits, Assembly.fits_chain, List.forall_mem_map]
  simp only [Assembly.tight_iff, Assembly.spelled, apart, true_and, Operator.level]
  cases xs with
  | nil => simp
  | cons y ys =>
    simp only [List.map_cons, ne_eq, List.cons_ne_nil, not_false_eq_true, forall_const, if_false]
    constructor
    · rintro ⟨le, fits, rest⟩
      exact ⟨⟨fits, le⟩, fun y mem => (rest y mem).symm⟩
    · rintro ⟨⟨fits, le⟩, rest⟩
      exact ⟨le, fits, fun y mem => (rest y mem).symm⟩

theorem fits_square : (square text).Fits ↔ Tight 8 text := by
  have apart : Operator.mul.fusesWith text = false :=
    Operator.fusesWith_eq_false (by decide) (by decide) text
  rw [square, Assembly.Fits, Assembly.tight_iff]
  simp only [Assembly.spelled, apart, Operator.level]
  constructor
  · rintro ⟨-, lt, -, fits, -⟩
    exact ⟨fits, lt⟩
  · rintro ⟨fits, lt⟩
    exact ⟨Nat.le_of_lt lt, lt, fun _ => trivial, fits, fits⟩

theorem fits_disjunction {xs : List Operand} :
    (parens (.chain .add (square x.text) (xs.map fun x => square x.text))).Fits
      ↔ Tight 8 x.text ∧ ∀ y ∈ xs, Tight 8 y.text ∧ Operator.add.fusesWith y.text = false := by
  have level : ∀ text, (square text).level = 7 := fun _ => rfl
  have fused : ∀ {text}, Tight 8 text →
      Operator.add.fusesWith (square text).spelled = Operator.add.fusesWith text := by
    intro text tight
    have some : text ≠ "" := by
      rintro rfl
      revert tight
      decide
    rw [square, Assembly.spelled, Assembly.spelled, String.append_assoc,
      Operator.fusesWith_append some]
  rw [Assembly.Fits, Assembly.fits_chain, List.forall_mem_map, level, fits_square]
  constructor
  · rintro ⟨-, first, rest⟩
    refine ⟨first, fun y mem => ?_⟩
    obtain ⟨-, apart, fits⟩ := rest y mem
    have tight := fits_square.mp fits
    exact ⟨tight, fused tight ▸ apart⟩
  · rintro ⟨first, rest⟩
    refine ⟨fun _ => by decide, first, fun y mem => ?_⟩
    obtain ⟨tight, apart⟩ := rest y mem
    exact ⟨by rw [level]; decide, (fused tight).trans apart, fits_square.mpr tight⟩

theorem fits_zero : (parens (binary .eq true (whole text) (whole "0"))).Fits ↔ Tight 4 text := by
  rw [Assembly.Fits, Assembly.Fits, Assembly.tight_iff]
  constructor
  · rintro ⟨le, -, -, fits, -⟩
    exact ⟨fits, le⟩
  · rintro ⟨fits, le⟩
    exact ⟨le, by decide, nofun, fits, by decide⟩

theorem fits_toPlaces {shape : Shape} {places : String} : (toPlaces shape text places).Fits
    ↔ Tight 7 text ∧ Tight 8 places ∧ Operator.sub.fusesWith places = false := by
  have ten : (whole "10").Fits := by decide
  have apart : ∀ text, Operator.mul.fusesWith text = false :=
    Operator.fusesWith_eq_false (by decide) (by decide)
  have power : ∀ e, (powerOfTen e).level = 9 := fun _ => rfl
  have tight : ∀ {e}, (powerOfTen e).Fits ↔ e.Fits := by
    intro e
    simp only [powerOfTen, Assembly.Fits, Assembly.FitsAll, and_true]
    exact and_iff_right ten
  rw [toPlaces, Assembly.Fits, Assembly.Fits, Assembly.FitsAll, Assembly.FitsAll, Assembly.Fits, tight,
    tight, Assembly.Fits, power, power, Assembly.tight_iff, Assembly.tight_iff]
  simp only [apart, Operator.level, Assembly.level]
  constructor
  · rintro ⟨-, -, -, ⟨⟨le, -, -, fits, -⟩, -⟩, le', apart, fits'⟩
    exact ⟨⟨fits, le⟩, ⟨fits', le'⟩, apart⟩
  · rintro ⟨⟨fits, le⟩, ⟨fits', le'⟩, apart⟩
    exact ⟨by decide, by decide, fun _ => trivial,
      ⟨⟨le, by decide, fun _ => trivial, fits, fits'⟩, trivial⟩, le', apart, fits'⟩

theorem fits_call {f : Callee} : (call f [whole text]).Fits ↔ Tight 0 text := by
  rw [Assembly.Fits, Assembly.FitsAll, Assembly.FitsAll, Assembly.tight_iff]
  simp

theorem fits_element {i : String} (index : (whole i).Fits) :
    (element text i).Fits ↔ Tight 9 text := by
  rw [element, Assembly.Fits, Assembly.FitsAll, Assembly.FitsAll]
  constructor
  · rintro ⟨nine, fits, -⟩
    exact (Assembly.level_whole_iff fits).mp nine
  · intro tight
    obtain ⟨fits, -⟩ := Assembly.tight_iff.mp tight
    exact ⟨(Assembly.level_whole_iff fits).mpr tight, fits, index, trivial⟩

theorem fits_unit : (call ⟨"arma::eye<mat>", by decide⟩ [element text "0", element text "1"]).Fits
    ↔ Tight 9 text := by
  rw [Assembly.Fits, Assembly.FitsAll, Assembly.FitsAll, Assembly.FitsAll, fits_element (by decide),
    fits_element (by decide), and_true, and_self_iff]

theorem fits_roundedCall {n : Operand} : (roundedCall x (some n)).Fits
    ↔ if x.cls.isIntegral || n.node.isInt 0 then Tight 0 x.text
      else Tight 7 x.text ∧ Tight 8 n.text ∧ Operator.sub.fusesWith n.text = false := by
  have alone : (whole x.text).Fits ↔ Tight 0 x.text := by
    rw [Assembly.tight_iff, and_iff_left (Nat.zero_le _)]
  unfold roundedCall
  cases x.cls.isIntegral with
  | true => simpa using alone
  | false =>
    cases zero : n.node.isInt 0 with
    | true => simpa [zero] using fits_call
    | false => simpa [zero] using fits_toPlaces

/-- A call that pastes its arguments is read as it is put together exactly if each of them is
as tight as it needs. -/
theorem fits_pastedCall (pasted : pastedCall? b s = some e) : e.Fits ↔ ArgumentsTight b s := by
  unfold pastedCall? at pasted
  unfold ArgumentsTight
  split at pasted
  case h_1 =>
    cases pasted
    exact fits_conjunction
  case h_2 =>
    cases pasted
    exact fits_disjunction
  case h_3 =>
    split at pasted <;> cases pasted
    exact fits_zero
  case h_4 =>
    split at pasted <;> cases pasted
    unfold roundedCall
    split
    · rw [Assembly.tight_iff, and_iff_left (Nat.zero_le _)]
    · exact fits_call
  case h_5 =>
    split at pasted <;> cases pasted
    exact fits_roundedCall
  case h_6 =>
    split at pasted <;> cases pasted
    exact fits_unit
  case h_7 => cases pasted

/-- Nothing but rounding leaves an operator outermost: the product with a power of ten, or what
stands in a number that is rounded already. -/
theorem level_pastedCall (pasted : pastedCall? b s = some e) (fits : e.Fits) :
    e.level = 9 ↔ StandsAlone b s := by
  unfold pastedCall? at pasted
  unfold StandsAlone
  split at pasted
  case h_1 | h_2 =>
    cases pasted
    exact iff_of_true rfl trivial
  case h_3 | h_6 =>
    split at pasted <;> cases pasted
    exact iff_of_true rfl trivial
  case h_4 operands =>
    split at pasted <;> cases pasted
    rw [operands]
    unfold roundedCall at fits ⊢
    dsimp only
    split at fits
    case isTrue integral =>
      rw [if_pos integral, forall_prop_of_true integral]
      exact Assembly.level_whole_iff fits
    case isFalse other =>
      rw [if_neg other]
      exact iff_of_true rfl fun integral => absurd integral other
  case h_5 operands =>
    split at pasted <;> cases pasted
    rw [operands]
    unfold roundedCall at fits ⊢
    dsimp only at fits ⊢
    split at fits
    case isTrue integral =>
      rw [if_pos integral, if_pos integral]
      exact Assembly.level_whole_iff fits
    case isFalse other =>
      rw [if_neg other, if_neg other]
      split
      case isTrue zero => exact iff_of_true rfl zero
      case isFalse places => exact iff_of_false (by decide : ¬(7 = 9)) places
  case h_7 => cases pasted

end

end Rule

end MatrixScript
