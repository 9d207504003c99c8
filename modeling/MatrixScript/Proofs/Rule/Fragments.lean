/-
# `Proofs.Rule.Fragments` — the fragments that operators are written from

The rule of an operator pastes the texts of its operands between operators, delimiters and
calls.  `fragments` lists what is pasted and what stands around it, and `written_fragments` says
that the rule writes that.  Operands alternate with operators in it (`alternates_fragments`),
whatever the types are, so where the texts of the operands are operands of C++ so is the text
of the whole.
-/
import MatrixScript.Proofs.Cpp.Fragments
import MatrixScript.Proofs.Rule.Joined

namespace MatrixScript

open Cpp (Assembly Alternates Operator Fragment)
open Cpp.Assembly (whole parens call applied member negated binary)

/-! ## Assemblies as fragments -/

namespace Cpp.Assembly

mutual

/-- What is pasted and what stands around it, from left to right. -/
def fragments : Assembly → List Fragment
  | whole text => [.whole text]
  | parens e => .opening "(" :: (e.fragments ++ [.closing ")"])
  | braces items => .opening "\x7b" :: (fragmentsAll items ++ [.closing "\x7d"])
  | call f items => .opening (f.name ++ "(") :: (fragmentsAll items ++ [.closing ")"])
  | applied e [] => e.fragments ++ [.closing "()"]
  | applied e items => e.fragments ++ .between "(" :: (fragmentsAll items ++ [.closing ")"])
  | member e m => e.fragments ++ [.closing ("." ++ m.name)]
  | negated e => .opening "-" :: e.fragments
  | binary op false left right => left.fragments ++ .between op.symbol :: right.fragments
  | binary op true left right => left.fragments ++ .between (" " ++ op.symbol ++ " ") :: right.fragments

/-- Items with commas between them. -/
def fragmentsAll : List Assembly → List Fragment
  | [] => []
  | [e] => e.fragments
  | e :: e' :: es => e.fragments ++ .between ", " :: fragmentsAll (e' :: es)

end

mutual

theorem spelled_fragments : ∀ e : Assembly, Fragment.spelled e.fragments = e.spelled
  | whole text => by
    rw [fragments, Fragment.spelled, Fragment.spelled, String.append_empty, spelled]
    rfl
  | parens e => by
    rw [fragments, Fragment.spelled, Fragment.spelled_append, spelled_fragments e, spelled]
    simp [Fragment.spelled, Fragment.text, String.append_assoc]
  | braces items => by
    rw [fragments, Fragment.spelled, Fragment.spelled_append, spelled_fragmentsAll items, spelled]
    simp [Fragment.spelled, Fragment.text, String.append_assoc]
  | call f items => by
    rw [fragments, Fragment.spelled, Fragment.spelled_append, spelled_fragmentsAll items, spelled]
    simp [Fragment.spelled, Fragment.text, String.append_assoc, Cpp.call]
  | applied e [] => by
    rw [fragments, Fragment.spelled_append, spelled_fragments e, spelled]
    rfl
  | applied e (item :: items) => by
    rw [fragments, Fragment.spelled_append, Fragment.spelled, Fragment.spelled_append, spelled_fragments e,
      spelled_fragmentsAll (item :: items), spelled]
    · simp [Fragment.spelled, Fragment.text, String.append_assoc, arguments]
    · nofun
  | member e m => by
    rw [fragments, Fragment.spelled_append, spelled_fragments e, spelled]
    simp [Fragment.spelled, Fragment.text, String.append_assoc]
  | negated e => by
    rw [fragments, Fragment.spelled, spelled_fragments e, spelled]
    rfl
  | binary op false left right => by
    rw [fragments, Fragment.spelled_append, Fragment.spelled, spelled_fragments left, spelled_fragments right, spelled]
    simp [Fragment.text, String.append_assoc]
  | binary op true left right => by
    rw [fragments, Fragment.spelled_append, Fragment.spelled, spelled_fragments left, spelled_fragments right, spelled]
    simp [Fragment.text, String.append_assoc]

theorem spelled_fragmentsAll : ∀ es : List Assembly,
    Fragment.spelled (fragmentsAll es) = Text.joined ", " (spelledAll es)
  | [] => rfl
  | [e] => by
    rw [fragmentsAll, spelled_fragments e]
    rfl
  | e :: e' :: es => by
    rw [fragmentsAll, Fragment.spelled_append, Fragment.spelled, spelled_fragments e,
      spelled_fragmentsAll (e' :: es)]
    show _ = Text.joined ", " (e.spelled :: e'.spelled :: spelledAll es)
    rw [Text.joined_cons, String.append_assoc]
    rfl

end

mutual

/-- What is pasted is a fragment. -/
theorem mem_fragments : ∀ {e : Assembly} {a : String}, a ∈ e.pasted → .whole a ∈ e.fragments
  | whole text, a, mem => by
    rw [List.mem_singleton.mp mem]
    exact List.mem_cons_self
  | parens e, a, mem => by simp [fragments, mem_fragments (e := e) mem]
  | braces items, a, mem => by simp [fragments, mem_fragmentsAll (show a ∈ pastedAll items from mem)]
  | call f items, a, mem => by simp [fragments, mem_fragmentsAll (show a ∈ pastedAll items from mem)]
  | applied e [], a, mem => by
    rw [pasted, pastedAll, List.append_nil] at mem
    simp [fragments, mem_fragments mem]
  | applied e (item :: items), a, mem => by
    rw [pasted, List.mem_append] at mem
    rw [fragments, List.mem_append]
    · exact mem.imp mem_fragments fun mem => by simp [mem_fragmentsAll (show a ∈ pastedAll (item :: items) from mem)]
    · nofun
  | member e m, a, mem => by simp [fragments, mem_fragments (e := e) mem]
  | negated e, a, mem => by simp [fragments, mem_fragments (e := e) mem]
  | binary op false left right, a, mem => by
    rw [pasted, List.mem_append] at mem
    rw [fragments, List.mem_append]
    exact mem.imp mem_fragments fun mem => List.mem_cons_of_mem _ (mem_fragments mem)
  | binary op true left right, a, mem => by
    rw [pasted, List.mem_append] at mem
    rw [fragments, List.mem_append]
    exact mem.imp mem_fragments fun mem => List.mem_cons_of_mem _ (mem_fragments mem)

theorem mem_fragmentsAll : ∀ {es : List Assembly} {a : String}, a ∈ pastedAll es → .whole a ∈ fragmentsAll es
  | [e], a, mem => by
    rw [pastedAll, pastedAll, List.append_nil] at mem
    exact mem_fragments mem
  | e :: e' :: es, a, mem => by
    rw [pastedAll, List.mem_append] at mem
    rw [fragmentsAll, List.mem_append]
    exact mem.imp mem_fragments fun mem => List.mem_cons_of_mem _ (mem_fragmentsAll mem)

end

/-! ### Operands and operators -/

section

variable {P : String → Prop} {e e' : Assembly}

theorem alternates_parens (h : Alternates P e.fragments) : Alternates P (parens e).fragments := by
  rw [fragments]
  exact .front (by decide) (h.behind (by decide))

theorem alternates_binary {op : Operator} (h : Alternates P e.fragments)
    (h' : Alternates P e'.fragments) : Alternates P (binary op false e e').fragments := by
  rw [fragments]
  exact .between h (by cases op <;> decide) h'

theorem alternates_negated (h : Alternates P e.fragments) : Alternates P (negated e).fragments := by
  rw [fragments]
  exact .front (by decide) h

/-- A call with two arguments. -/
theorem alternates_call {f : Callee} (known : f.name ++ "(" ∈ Cpp.openings)
    (h : Alternates P e.fragments) (h' : Alternates P e'.fragments) :
    Alternates P (call f [e, e']).fragments := by
  rw [fragments, fragmentsAll, fragmentsAll]
  exact .front known (.behind (.between h (by decide) h') (by decide))

theorem alternates_transposed (h : Alternates P e.fragments) :
    Alternates P (Rule.transposedText e).fragments := by
  rw [Rule.transposedText, fragments, fragments]
  exact .behind (.behind h (by decide)) (by decide)

end

end Cpp.Assembly

namespace Rule

section

variable {P : String → Prop} {s : Site} {o : Operand} {os : List Operand} {q : Assembled}

/-- The text can be pasted, also with a zero behind the point if it is an integer literal. -/
def Pastes (P : String → Prop) (o : Operand) : Prop :=
  P o.text ∧ (o.node.category = .int → P (o.text ++ ".0"))

theorem alternates_whole {a : String} (h : P a) : Alternates P (whole a).fragments := by
  rw [Assembly.fragments]
  exact .whole h

theorem alternates_ratio (one : P "1.0") (wide : Bool) {numerator divisor : Assembly}
    (h : Alternates P numerator.fragments) (h' : Alternates P divisor.fragments) :
    Alternates P (ratio wide numerator divisor).fragments := by
  unfold ratio
  refine Assembly.alternates_binary ?_ h'
  split
  · exact Assembly.alternates_binary h (alternates_whole one)
  · exact h

theorem alternates_chained (op : Operator) (pastes : ∀ x ∈ o :: os, P x.text) :
    Alternates P (chained op o os).fragments := by
  obtain ⟨here, others⟩ := List.forall_mem_cons.mp pastes
  rw [chained, Assembly.chain, List.foldl_map]
  exact List.foldlRecOn os _ (motive := fun e : Assembly => Alternates P e.fragments)
    (alternates_whole here)
    fun _ h x mem => Assembly.alternates_binary h (alternates_whole (others x mem))

theorem alternates_solved (operator : String) {step : Assembled → Operand → Assembled}
    (steps : ∀ {q : Assembled} {x : Operand}, Alternates P q.assembly.fragments → P x.text →
      Alternates P (step q x).assembly.fragments) (pastes : ∀ x ∈ o :: os, P x.text) :
    Alternates P (Assembled.solved s operator step (.ofOperand o) os).assembly.fragments := by
  obtain ⟨here, others⟩ := List.forall_mem_cons.mp pastes
  exact List.foldlRecOn os _ (motive := fun q : Assembled => Alternates P q.assembly.fragments)
    (alternates_whole here) fun q h x mem => steps h (others x mem)

section

variable (one : P "1.0")
include one

theorem alternates_divideBy (typed : Bool) (h : Alternates P q.assembly.fragments) (pastes : Pastes P o) :
    Alternates P (q.divideBy typed o).assembly.fragments := by
  unfold Assembled.divideBy
  dsimp only
  split
  case isTrue int => exact alternates_ratio one _ h (alternates_whole (pastes.2 (eq_of_beq int)))
  case isFalse => exact alternates_ratio one _ h (alternates_whole pastes.1)

theorem alternates_divideInto (typed literal : Bool) (q : Assembled) {divisor : Assembly}
    (h : Alternates P divisor.fragments) (literals : literal → P (divisor.spelled ++ ".0"))
    (pastes : P o.text) : Alternates P (q.divideInto typed literal divisor o).assembly.fragments := by
  unfold Assembled.divideInto
  dsimp only
  split
  case isTrue int => exact alternates_ratio one _ (alternates_whole pastes) (alternates_whole (literals int))
  case isFalse => exact alternates_ratio one _ (alternates_whole pastes) h

theorem alternates_solveRight (h : Alternates P q.assembly.fragments) (pastes : P o.text) :
    Alternates P (q.solveRight o).assembly.fragments := by
  unfold Assembled.solveRight
  dsimp only
  split
  · exact Assembly.alternates_transposed (Assembly.alternates_call (by decide)
      (Assembly.alternates_transposed (alternates_whole pastes)) (Assembly.alternates_transposed h))
  · exact alternates_ratio one _ h (alternates_whole pastes)

theorem alternates_solveLeft (h : Alternates P q.assembly.fragments) (pastes : P o.text) :
    Alternates P (q.solveLeft o).assembly.fragments := by
  unfold Assembled.solveLeft
  dsimp only
  split
  · exact Assembly.alternates_call (by decide) h (alternates_whole pastes)
  · exact alternates_ratio one _ (Assembly.alternates_parens h) (alternates_whole pastes)

theorem alternates_leftQuotient (typed : Bool) (pastes : ∀ x ∈ o :: os, Pastes P x) :
    Alternates P (Assembled.leftQuotient typed o os).assembly.fragments := by
  obtain ⟨here, others⟩ := List.forall_mem_cons.mp pastes
  cases os with
  | nil => exact alternates_whole here.1
  | cons second more =>
    obtain ⟨next, others⟩ := List.forall_mem_cons.mp others
    refine List.foldlRecOn more _ (motive := fun q : Assembled => Alternates P q.assembly.fragments)
      (alternates_divideInto one _ _ _ (alternates_whole here.1) (fun int => here.2 (eq_of_beq int)) next.1)
      fun q h x mem => ?_
    exact alternates_divideInto one _ _ _ (Assembly.alternates_parens h) nofun (others x mem).1

/-- Whatever the types are, the operands of an operator alternate with what stands around them. -/
theorem alternates_operation {e : Assembly} (found : operation? s o os = some e)
    (pastes : ∀ x ∈ o :: os, Pastes P x) : Alternates P e.fragments := by
  have texts : ∀ x ∈ o :: os, P x.text := fun x mem => (pastes x mem).1
  obtain ⟨here, others⟩ := List.forall_mem_cons.mp pastes
  have divided : Alternates P
      (os.foldl (.divideBy s.seed.numeric) (Assembled.ofOperand o)).assembly.fragments :=
    List.foldlRecOn os _ (motive := fun q : Assembled => Alternates P q.assembly.fragments)
      (alternates_whole here.1) fun q h x mem => alternates_divideBy one _ h (others x mem)
  unfold operation? at found
  split at found
  case h_1 | h_2 =>
    cases found
    exact alternates_chained _ texts
  case h_3 =>
    cases found
    exact divided
  case h_4 =>
    cases found
    exact alternates_leftQuotient one _ pastes
  case h_5 =>
    cases found
    unfold rightDivision
    split
    · exact alternates_chained _ texts
    · split
      · exact divided
      · exact alternates_solved _ (alternates_solveRight one) texts
  case h_6 =>
    split at found
    case isTrue =>
      cases found
      unfold leftDivision
      split
      · exact alternates_leftQuotient one _ pastes
      · exact alternates_solved _ (alternates_solveLeft one) texts
    case isFalse => cases found
  case h_7 | h_8 =>
    cases found
    have known : (powerCallee s).name ++ "(" ∈ Cpp.openings := by
      show powerFunction s ++ "(" ∈ Cpp.openings
      unfold powerFunction
      split
      · decide
      · split <;> decide
    exact List.foldlRecOn os _ (motive := fun e : Assembly => Alternates P e.fragments)
      (alternates_whole here.1)
      fun e h x mem => Assembly.alternates_call known h (alternates_whole (others x mem).1)
  case h_9 =>
    obtain ⟨op, -, rfl⟩ := Option.map_eq_some_iff.mp found
    exact alternates_chained op texts

end

/-! ## What the rules write -/

/-- Operands with a backslash in the gaps, which is no operator of C++. -/
def unsolved (o : Operand) (os : List Operand) : List Fragment :=
  os.foldl (fun fs x => fs ++ [.between "\\", .whole x.text]) [.whole o.text]

/-- What the rule of an operator writes. -/
def fragments (s : Site) : List Fragment :=
  match s.operands with
  | [] => []
  | o :: os =>
      match s.node.category with
      | .paren => (parens (whole o.text)).fragments
      | .neg => (negated (parens (whole o.text))).fragments
      | _ => ((operation? s o os).map (·.fragments)).getD (unsolved o os)

/-- Parentheses, a minus, and operators between operands. -/
def isJoining (c : Category) : Bool := c.isChained || c.isComparison || c == .paren || c == .neg

theorem spelled_unsolved (o : Operand) (os : List Operand) :
    Fragment.spelled (unsolved o os) = Text.joined "\\" ((o :: os).map (·.text)) := by
  rw [List.map_cons, joined_cons, List.foldl_map]
  have first : Fragment.spelled [.whole o.text] = o.text := by
    rw [Fragment.spelled, Fragment.spelled, String.append_empty]
    rfl
  rw [← first]
  refine (List.foldl_hom Fragment.spelled fun fs x => ?_).symm
  rw [Fragment.spelled_append]
  simp [Fragment.spelled, Fragment.text, String.append_assoc]

/-- Only a left division of operands of unknown type has no operator of C++. -/
theorem leftDiv_of_none (operator : s.node.category.isChained || s.node.category.isComparison)
    (none : operation? s o os = none) :
    s.node.category = .leftDiv ∧ s.seed.datatype.isKnown = false := by
  unfold operation? at none
  cases category : s.node.category <;> rw [category] at operator none <;>
    first | cases operator; done | cases none | skip
  refine ⟨rfl, ?_⟩
  dsimp only at none
  split at none
  · cases none
  · rwa [Bool.not_eq_true] at *

theorem writes_neg {x : Operand} (category : s.node.category = .neg) (operands : s.operands = [x]) :
    Writes (select s.tree s.node) s ("-(" ++ x.text ++ ")") := by
  rw [select_of_category neg (fun b => by rw [category]; rfl) (by rw [category]; rfl)]
  refine ⟨_, rfl, ?_⟩
  rw [Site.written, texts_of_operands operands]
  rfl

/-- The rule of an operator writes its fragments. -/
theorem writes_fragments (operator : isJoining s.node.category) (operands : s.operands = o :: os)
    (single : s.node.category.isUnary → os = []) :
    Writes (select s.tree s.node) s (Fragment.spelled (fragments s)) := by
  unfold isJoining at operator
  unfold fragments
  rw [operands]
  dsimp only
  split
  case h_1 paren =>
    rw [Assembly.spelled_fragments, Assembly.spelled]
    exact writes_paren paren operands
  case h_2 neg =>
    obtain rfl := single (by rw [neg]; rfl)
    rw [Assembly.spelled_fragments, Assembly.spelled, Assembly.spelled, ← String.append_assoc,
      ← String.append_assoc]
    exact writes_neg neg operands
  case h_3 paren neg =>
    have operator : s.node.category.isChained || s.node.category.isComparison := by
      have paren : s.node.category ≠ .paren := paren
      have neg : s.node.category ≠ .neg := neg
      simpa [paren, neg] using operator
    cases found : operation? s o os with
    | some e =>
      rw [Option.map_some, Option.getD_some, Assembly.spelled_fragments]
      exact writes_operation operands found
    | none =>
      obtain ⟨category, unknown⟩ := leftDiv_of_none operator found
      rw [Option.map_none, Option.getD_none, spelled_unsolved, select_of_isOperator
        (by rw [category]; rfl), category]
      refine ⟨_, structural_of_unknown unknown, ?_⟩
      rw [Site.written, between, Template.render, texts_of_operands operands, String.empty_append,
        String.append_empty]
      rfl

theorem alternates_unsolved (pastes : ∀ x ∈ o :: os, P x.text) : Alternates P (unsolved o os) := by
  obtain ⟨here, others⟩ := List.forall_mem_cons.mp pastes
  exact List.foldlRecOn os _ (motive := Alternates P) (.whole here)
    fun fs h x mem => .between h (by decide) (.whole (others x mem))

/-- Whatever the types are, operands alternate with what stands around them. -/
theorem alternates_fragments (one : P "1.0") (some : s.operands ≠ [])
    (pastes : ∀ x ∈ s.operands, Pastes P x) : Alternates P (fragments s) := by
  obtain ⟨o, os, operands⟩ := List.exists_cons_of_ne_nil some
  rw [operands] at pastes
  have texts : ∀ x ∈ o :: os, P x.text := fun x mem => (pastes x mem).1
  have first := alternates_whole (texts o List.mem_cons_self)
  unfold fragments
  rw [operands]
  dsimp only
  split
  case h_1 => exact Assembly.alternates_parens first
  case h_2 => exact Assembly.alternates_negated (Assembly.alternates_parens first)
  case h_3 =>
    cases found : operation? s o os with
    | some e =>
      rw [Option.map_some, Option.getD_some]
      exact alternates_operation one found pastes
    | none => exact alternates_unsolved texts

theorem mem_unsolved (o : Operand) (os : List Operand) :
    ∀ x ∈ o :: os, .whole x.text ∈ unsolved o os := by
  have kept : ∀ (fs : List Fragment) (os : List Operand),
      (∀ f ∈ fs, f ∈ os.foldl (fun fs x => fs ++ [.between "\\", .whole x.text]) fs)
        ∧ ∀ x ∈ os, .whole x.text ∈ os.foldl (fun fs x => fs ++ [.between "\\", .whole x.text]) fs := by
    intro fs os
    induction os generalizing fs with
    | nil => exact ⟨fun _ mem => mem, fun _ mem => absurd mem List.not_mem_nil⟩
    | cons x xs ih =>
      obtain ⟨front, rest⟩ := ih (fs ++ [.between "\\", .whole x.text])
      exact ⟨fun f mem => front f (by simp [mem]),
        List.forall_mem_cons.mpr ⟨front _ (by simp), rest⟩⟩
  obtain ⟨front, rest⟩ := kept [.whole o.text] os
  exact List.forall_mem_cons.mpr ⟨front _ List.mem_cons_self, rest⟩

/-- The text of every operand is a fragment, but for integer literals, which may be widened. -/
theorem whole_mem_fragments (operands : s.operands = o :: os)
    (single : s.node.category.isUnary → os = []) :
    ∀ x ∈ s.operands, x.node.category ≠ .int → .whole x.text ∈ fragments s := by
  unfold fragments
  rw [operands]
  dsimp only
  intro x mem stays
  split
  case h_1 paren =>
    obtain rfl := single (by rw [paren]; rfl)
    rw [List.mem_singleton.mp mem]
    exact Assembly.mem_fragments (e := parens (whole o.text)) List.mem_cons_self
  case h_2 neg =>
    obtain rfl := single (by rw [neg]; rfl)
    rw [List.mem_singleton.mp mem]
    exact Assembly.mem_fragments (e := negated (parens (whole o.text))) List.mem_cons_self
  case h_3 =>
    cases found : operation? s o os with
    | some e =>
      rw [Option.map_some, Option.getD_some]
      exact Assembly.mem_fragments (pasted_operation found x mem stays)
    | none => exact mem_unsolved o os x mem

end

end Rule

end MatrixScript
