/-
# `Proofs.Rule.Solid` — expressions are not blank

Items of a list can be counted only where each of them is something.  Every rule of an
expression writes more than blanks where its operands do (`Rule.shown_select`): it calls or
brackets something, or puts what it has side by side, and no operator goes without operands.
The names of parameters and of outputs are lists themselves, which may be empty.
-/
import MatrixScript.Proofs.Cpp.Call
import MatrixScript.Proofs.Rule.Refusal
import MatrixScript.Proofs.Rule.Scalar

namespace MatrixScript

open Cpp

/-- Numbers start with a digit or a point. -/
theorem Token.solid_of_numberAt? {a : String} {found : NumberKind × Nat}
    (h : numberAt? a.toList = some found) : Solid a := by
  cases letters : a.toList with
  | nil =>
    rw [letters] at h
    cases h
  | cons c cs =>
    rw [letters] at h
    refine ⟨c, by rw [letters]; exact List.mem_cons_self, ?_⟩
    rintro rfl
    rcases numberAt?_head h with digit | point
    · cases digit
    · cases point

theorem solid_of_word {a : String} (some : a ≠ "") (word : ∀ c ∈ a.toList, Token.isWordRest c) :
    Solid a := by
  obtain ⟨c, mem⟩ := List.exists_mem_of_ne_nil a.toList fun none => some (String.toList_injective none)
  refine ⟨c, mem, ?_⟩
  rintro rfl
  cases word _ mem

/-! ## Templates -/

namespace Template

variable {node : Node} {texts : List String}

theorem solid_join {before : String} (h : Solid before) (between after : String) :
    Solid ((join before between after).render node texts) := (h.append_left _).append_left _

theorem solid_between (operator : String) (some : texts ≠ []) (h : ∀ a ∈ texts, Solid a) :
    Solid ((Rule.between operator).render node texts) :=
  ((solid_joined operator some h).append_right "").append_left ""

/-- The pattern starts with something that is neither a blank nor a placeholder. -/
def opens (pattern : String) : Bool :=
  match pattern.toList with
  | [] => false
  | c :: _ => c != '%' && c != ' '

theorem opens_append {a : String} (h : opens a) (b : String) : opens (a ++ b) := by
  unfold opens at h ⊢
  rw [String.toList_append]
  split at h
  case h_1 => cases h
  case h_2 letters =>
    rw [letters]
    exact h

theorem solid_format {pattern : String} (h : opens pattern) :
    Solid ((format pattern).render node texts) := by
  unfold opens at h
  split at h
  case h_1 => cases h
  case h_2 c cs letters =>
    obtain ⟨percent, blank⟩ := Bool.and_eq_true _ _ |>.mp h
    have plain : '%' ∉ [c] := fun mem => by
      obtain rfl := List.mem_singleton.mp mem
      cases percent
    refine ⟨c, ?_, fun here => by rw [here] at blank; cases blank⟩
    rw [render, String.toList_ofList, letters, ← List.singleton_append, substitute_append plain]
    exact List.mem_append_left _ List.mem_cons_self

/-- A pattern that starts with the placeholder of a key of one character. -/
theorem render_placeholder {c : Char} {text : String} (other : c ≠ ')')
    (value : valueOf? node texts [c] = some text) (tail : String) :
    (format (String.ofList ['%', '(', c, ')', 's'] ++ tail)).render node texts
      = text ++ (format tail).render node texts := by
  have opens : Text.splitAtPair '%' '(' (String.ofList ['%', '(', c, ')', 's'] ++ tail).toList
      = some ([], c :: ')' :: 's' :: tail.toList) := by
    rw [String.toList_append, String.toList_ofList]
    rfl
  have closes : Text.splitAtPair ')' 's' (c :: ')' :: 's' :: tail.toList) = some ([c], tail.toList) := by
    rw [Text.splitAtPair, if_neg fun here => other here.1]
    rfl
  apply String.toList_injective
  rw [render, String.toList_ofList, substitute_step opens closes, value, String.toList_append,
    render, String.toList_ofList]
  rfl

/-- A pattern that starts with the first operand. -/
theorem render_operand (tail text : String) (rest : List String) :
    (format ("%(0)s" ++ tail)).render node (text :: rest)
      = text ++ (format tail).render node (text :: rest) :=
  render_placeholder (c := '0') (by decide) rfl tail

/-- A pattern that starts with the second operand. -/
theorem render_second (tail first text : String) (rest : List String) :
    (format ("%(1)s" ++ tail)).render node (first :: text :: rest)
      = text ++ (format tail).render node (first :: text :: rest) :=
  render_placeholder (c := '1') (by decide) rfl tail

/-- A pattern without placeholders. -/
theorem render_fixed {text : String} (plain : '%' ∉ text.toList) :
    (format text).render node texts = text := by
  have whole : (format (text ++ "")).render node texts = text ++ (format "").render node texts :=
    render_format_append plain node texts
  rw [String.append_empty] at whole
  rw [whole, render, show "".toList = [] from rfl, substitute_plain rfl]
  exact String.append_empty

/-- The text of the first operand as it is. -/
theorem render_whole (text : String) (rest : List String) :
    (format "%(0)s").render node (text :: rest) = text := by
  have whole : (format ("%(0)s" ++ "")).render node (text :: rest) = _ := render_operand "" text rest
  rw [String.append_empty] at whole
  rw [whole, render_fixed (by simp), String.append_empty]

end Template

/-! ## Answers -/

/-- A site of an expression of a program whose operands are not blank. -/
structure Site.Filled (s : Site) : Prop where
  sound : s.Sound
  shaped : s.tree.Shaped s.id
  word : s.node.category.isNamed → ∀ c ∈ s.name.toList, Token.isWordRest c
  texts : ∀ o ∈ s.operands, Solid o.text
  temporary : ∀ node d, Solid (s.state.temporaryName node d)

namespace Rule

open Template

/-- The text of the answer, if there is one, is not blank. -/
def Shown (s : Site) (answer : Except Error Outcome) : Prop := ∀ o, answer = .ok o → Solid (s.written o)

variable {s : Site}

theorem Shown.error (e : Error) : Shown s (.error e) := nofun

theorem Shown.ok {o : Outcome}
    (h : ∀ typing, Solid (o.template.render { s.node with typing } s.texts)) : Shown s (.ok o) := by
  intro o' eq
  cases eq
  exact h _

theorem shown_verbatim {typing : Typing} {effects : List Effect} :
    Shown s (.ok ⟨s.verbatim, typing, effects⟩) :=
  .ok fun _ => solid_join (.append_right _ (solid_fixed rfl)) _ _

theorem shown_refuse : Shown s s.refuse := shown_verbatim

/-- A fixed call. -/
theorem shown_call {front between : String} {typing : Typing} {effects : List Effect}
    (h : Solid front) : Shown s (.ok ⟨.join front between ")", typing, effects⟩) :=
  .ok fun _ => solid_join h _ _

theorem shown_format {pattern : String} {typing : Typing} {effects : List Effect}
    (h : opens pattern) : Shown s (.ok ⟨.format pattern, typing, effects⟩) :=
  .ok fun _ => solid_format h

theorem shown_fixed {text : String} {typing : Typing} {effects : List Effect} (h : Solid text) :
    Shown s (.ok ⟨.fixed text, typing, effects⟩) := .ok fun _ => h

/-! ## Rules of categories -/

section

variable (texts : ∀ o ∈ s.operands, Solid o.text)
include texts

theorem solid_texts : ∀ a ∈ s.texts, Solid a := List.forall_mem_map.mpr texts

/-- The first operand as it is, with something behind it. -/
theorem shown_operand {o : Operand} {os : List Operand} (eq : s.operands = o :: os) (tail : String)
    {typing : Typing} {effects : List Effect} :
    Shown s (.ok ⟨.format ("%(0)s" ++ tail), typing, effects⟩) := by
  refine .ok fun _ => ?_
  rw [Site.texts, eq, List.map_cons, render_operand]
  exact (texts o (by simp [eq])).append_left _

section

variable (some : s.operands ≠ [])
include some

omit texts in
theorem texts_ne_nil : s.texts ≠ [] := fun none => some (List.map_eq_nil_iff.mp none)

theorem shown_between (operator : String) {typing : Typing} {effects : List Effect} :
    Shown s (.ok ⟨between operator, typing, effects⟩) :=
  .ok fun _ => solid_between operator (texts_ne_nil some) (solid_texts texts)

theorem shown_mul : Shown s (mul s) := by
  unfold mul
  split
  · exact shown_between texts some _
  · split
    · exact shown_between texts some _
    · split
      · exact .error _
      · exact shown_between texts some _

theorem shown_elMul : Shown s (elMul s) := by
  unfold elMul
  split
  · exact shown_between texts some _
  · exact shown_between texts some _

end

omit texts in
theorem solid_foldl {step : String → String → String} (one : ∀ {a b}, Solid a → Solid (step a b))
    (rest : List String) {first : String} (h : Solid first) : Solid (rest.foldl step first) := by
  induction rest generalizing first with
  | nil => exact h
  | cons a rest ih => exact ih (one h)

theorem shown_power : Shown s (power s) := by
  have solid := solid_texts texts
  unfold power
  split
  · exact .error _
  case h_2 first rest eq =>
    refine shown_fixed (solid_foldl (fun base => ?_) rest (solid first (by simp [eq])))
    exact (((base.append_right _).append_left _).append_left _).append_left _

omit texts in
theorem shown_negation (typing : Typing) : Shown s (negation typing s) := by
  unfold negation
  split
  · exact shown_format (by decide)
  · exact shown_format (by decide)

omit texts in
theorem shown_transposed (typing : Typing) : Shown s (transposed typing s) := by
  unfold transposed turned
  split
  · exact shown_format (by decide)
  · split
    · exact .error _
    · exact shown_call (solid_fixed rfl)

omit texts in
theorem shown_conjugated (typing : Typing) : Shown s (conjugated typing s) := by
  unfold conjugated turned
  split
  · exact shown_call (solid_fixed rfl)
  · split
    · exact .error _
    · refine .ok fun _ => ?_
      dsimp only
      split
      · exact solid_join (solid_fixed rfl) _ _
      · exact solid_join (solid_fixed rfl) _ _

/-! ### Divisions -/

omit texts in
/-- Every step of a division leaves its quotient in the text, or calls something. -/
theorem solid_quotients {step : Quotient → Operand → Quotient}
    (one : ∀ {q : Quotient} {o : Operand}, Solid q.text → Solid (step q o).text) (rest : List Operand)
    {q : Quotient} (h : Solid q.text) : Solid (rest.foldl step q).text := by
  induction rest generalizing q with
  | nil => exact h
  | cons o rest ih => exact ih (one h)

omit texts in
theorem solid_quotient (operator : String) {step : Quotient → Operand → Quotient}
    (one : ∀ {q : Quotient} {o : Operand}, Solid q.text → Solid (step q o).text) (rest : List Operand)
    {q : Quotient} (h : Solid q.text) : Solid (quotient s operator step q rest).1.text := by
  induction rest generalizing q with
  | nil => exact h
  | cons o rest ih => exact ih (q := { step q o with shape := _ }) (one h)

omit texts in
theorem solid_divideBy (typed : Bool) {q : Quotient} {o : Operand} (h : Solid q.text) :
    Solid (divideBy typed q o).text := by
  unfold divideBy
  dsimp only
  split
  · exact ((h.append_left _).append_left _).append_left _
  · split
    · exact (h.append_left _).append_left _
    · exact (h.append_left _).append_left _

omit texts in
theorem solid_divideInto (typed literal : Bool) (q : Quotient) (divisor : String) (o : Operand) :
    Solid (divideInto typed literal q divisor o).text := by
  have slash : ∀ operator : String, Solid operator → Solid (o.text ++ operator ++ divisor) :=
    fun _ h => (h.append_right _).append_left _
  unfold divideInto
  dsimp only
  split
  · exact (slash "/" (solid_fixed rfl)).append_left _
  · split
    · exact slash _ (solid_fixed rfl)
    · exact slash _ (solid_fixed rfl)

omit texts in
theorem solid_solveRight {q : Quotient} {o : Operand} (h : Solid q.text) :
    Solid (solveRight q o).text := by
  unfold solveRight
  split
  · exact Solid.append_right _ (solid_fixed rfl)
  · split
    · exact (h.append_left _).append_left _
    · exact (h.append_left _).append_left _

omit texts in
theorem solid_solveLeft {q : Quotient} {o : Operand} : Solid (solveLeft q o).text := by
  unfold solveLeft
  split
  · exact Solid.append_right _ (solid_fixed rfl)
  · split
    · exact (Solid.append_right _ (solid_fixed rfl)).append_left _
    · exact (Solid.append_right _ (solid_fixed rfl)).append_left _

theorem shown_elRightDiv : Shown s (elRightDiv s) := by
  unfold elRightDiv
  split
  · exact .error _
  case h_2 first rest eq =>
    exact shown_fixed (solid_quotients (solid_divideBy _) rest (texts first (by simp [eq])))

theorem shown_elLeftDiv : Shown s (elLeftDiv s) := by
  unfold elLeftDiv
  split
  · exact .error _
  case h_2 first rest eq =>
    refine shown_fixed ?_
    split
    · exact texts first (by simp [eq])
    · exact solid_quotients (fun _ => solid_divideInto _ _ _ _ _) _ (solid_divideInto _ _ _ _ _)

theorem shown_structural (some : s.operands ≠ []) (operator : String)
    {step : Quotient → Operand → Quotient}
    (one : ∀ {q : Quotient} {o : Operand}, Solid q.text → Solid (step q o).text) {scalars : Rule}
    (plain : Shown s (scalars s)) : Shown s (structural operator step scalars s) := by
  unfold structural
  split
  · exact shown_between texts some _
  · split
    · exact plain
    · split
      · exact .error _
      case h_2 first rest eq =>
        exact shown_fixed (solid_quotient operator one rest (texts first (by simp [eq])))

end

/-! ### Subscripts -/

theorem shown_range (count : s.operands.length = 2 ∨ s.operands.length = 3) : Shown s (range s) := by
  have bounds : (∀ a b, s.operands ≠ [a, b]) → (∀ a b c, s.operands ≠ [a, b, c]) → False := by
    intro two three
    rcases count with count | count
    · obtain ⟨a, b, eq⟩ := List.length_eq_two.mp count
      exact two a b eq
    · obtain ⟨a, b, c, eq⟩ := List.length_eq_three.mp count
      exact three a b c eq
  unfold range
  split
  · unfold rangeOfPositions
    split
    · exact shown_fixed (.append_right _ (solid_fixed rfl))
    · exact shown_fixed (.append_right _ (solid_fixed rfl))
    case h_3 two three => exact (bounds two three).elim
  · unfold rangeOfValues
    split
    · exact shown_format (by decide)
    · split
      · exact shown_format (by decide)
      · exact shown_format (by decide)
    case h_3 two three => exact (bounds two three).elim

theorem shown_all : Shown s (all s) := by
  unfold all
  split
  · exact shown_fixed (.append_right _ (solid_fixed rfl))
  · exact shown_fixed (solid_fixed rfl)

theorem shown_last : Shown s (last s) := by
  unfold last
  split
  · exact shown_fixed (solid_fixed rfl)
  · split
    · exact shown_fixed ((Solid.append_right _ (solid_fixed rfl)).append_left _)
    · exact shown_fixed (solid_fixed rfl)

theorem shown_subscript : Shown s (subscript s) := by
  unfold subscript
  split
  · exact shown_verbatim
  · split
    · exact shown_fixed (.append_right _ (solid_fixed rfl))
    · exact shown_fixed (.append_right _ (solid_fixed rfl))

/-! ### Literals -/

section

variable (h : s.Filled)
include h

theorem solid_name (named : s.node.category.isNamed) : Solid s.name :=
  solid_of_word (h.shaped.name.mpr named) (h.word named)

theorem shown_value {d : Datatype} (literal : s.node.category = .int ∨ s.node.category = .float) :
    Shown s (s.typed d (.format "%(value)s")) := by
  have value := h.shaped.value
  have kind : s.tree.category s.id = s.node.category := rfl
  rw [kind, show s.node.category.isLiteral = true by rcases literal with eq | eq <;> rw [eq] <;> rfl]
    at value
  obtain ⟨v, eq⟩ := Option.isSome_iff_exists.mp value
  have spells := h.shaped.spelled v eq
  refine .ok fun typing => ?_
  rw [render_value { s.node with typing } s.texts eq]
  rw [kind] at spells
  rcases literal with eq | eq <;> rw [eq] at spells
  · exact Token.solid_of_numberAt? (eq_of_beq spells)
  · exact Token.solid_of_numberAt? (eq_of_beq spells)

theorem shown_var (named : s.node.category.isNamed) : Shown s (var s) := by
  unfold var
  split <;>
  · refine .ok fun typing => ?_
    rw [render_name]
    exact solid_name h named

theorem shown_row (some : s.operands ≠ []) : Shown s (row s) := by
  have texts := solid_texts h.texts
  unfold row
  split
  case h_1 none => exact absurd none some
  case h_2 eq => exact shown_operand h.texts eq ""
  case h_3 first rest _ eq =>
    have here : Solid first.text := h.texts first (by simp [eq])
    have joins : Solid (joins "arma::join_rows" first.text (rest.map (·.text))) := by
      refine solid_foldl (fun acc => ?_) _ here
      exact (((acc.append_right _).append_left _).append_left _).append_left _
    dsimp only
    split
    · exact .ok fun _ => ((solid_joined _ (texts_ne_nil some) texts).append_right "").append_left ""
    · split
      · exact shown_fixed joins
      · exact shown_fixed joins

omit h in
theorem solid_braced (text : String) : Solid (braced text) :=
  Solid.append_left (Solid.append_left (solid_fixed rfl) _) _

omit h in
theorem solid_initialiser (d : Datatype) (text : String) : Solid (initialiser d text) :=
  .append_right _ (solid_fixed rfl)

theorem shown_plainMatrix (d : Datatype) : Shown s (plainMatrix d s) := by
  unfold plainMatrix
  split
  · exact .error _
  case h_2 eq =>
    split
    · exact shown_operand h.texts eq ""
    · exact shown_fixed (solid_initialiser _ _)
  · split
    · exact shown_fixed (solid_initialiser _ _)
    · exact shown_fixed (solid_initialiser _ _)

theorem shown_stackedMatrix (d : Datatype) : Shown s (stackedMatrix d s) := by
  unfold stackedMatrix
  split
  · exact .error _
  case h_2 first rest eq =>
    refine shown_fixed (solid_foldl (fun acc => ?_) _ ?_)
    · exact (((acc.append_right _).append_left _).append_left _).append_left _
    · unfold stackedRow
      split
      · exact solid_initialiser _ _
      · exact h.texts first (by simp [eq])

theorem shown_matrix : Shown s (matrix s) := by
  unfold matrix
  dsimp only
  split
  · exact shown_fixed (solid_braced _)
  · split
    · exact shown_fixed (.append_right _ (solid_fixed rfl))
    · split
      · split
        · exact shown_plainMatrix h _
        · refine shown_fixed ?_
          unfold untypedInitialiser
          split
          · exact solid_braced _
          · exact solid_braced _
      · exact shown_stackedMatrix h _

end

end Rule

/-! ## Rules of built-ins -/

namespace BuiltinRule

open Rule Template

variable {s : Site}

theorem shown_toc : Shown s (toc s) := by
  unfold toc
  dsimp only
  split
  · exact shown_fixed (solid_fixed rfl)
  · exact shown_fixed (solid_fixed rfl)

theorem shown_housekeeping : Shown s (housekeeping s) := by
  have comment : Solid ("// " ++ s.name) := .append_left (solid_fixed rfl) _
  unfold housekeeping
  split
  · exact shown_fixed comment
  · exact shown_call (comment.append_left _)

theorem shown_eye : Shown s (eye s) := by
  unfold eye
  dsimp only
  split
  · exact shown_fixed (solid_fixed rfl)
  · split
    · exact shown_verbatim
    · split
      · exact shown_format (by decide)
      · exact shown_format (by decide)
  · split
    · exact shown_verbatim
    · exact shown_format (by decide)
  · exact shown_refuse

theorem shown_rand : Shown s (rand s) := by
  have array : ∀ shape, Shown s (randomArray shape s) := fun shape =>
    shown_call (.append_right _ (solid_fixed rfl))
  unfold rand
  split
  · exact shown_fixed (solid_fixed rfl)
  · exact array _
  · exact array _
  · exact array _
  · exact shown_refuse

theorem shown_filledByNumbers {constructor : String} (h : opens constructor) (d : Datatype) :
    Shown s (filledByNumbers constructor d s) := by
  have whole : Shown s (s.typed d (.join (constructor ++ "(") ", " ")")) :=
    shown_call (.append_right _ (solid_fixed rfl))
  unfold filledByNumbers
  dsimp only
  split
  · split
    · exact whole
    · split
      · exact shown_format (opens_append h _)
      · split
        · exact shown_format (opens_append h _)
        · exact whole
  · exact whole

theorem shown_filled : Shown s (filled s) := by
  unfold filled
  split
  · refine shown_fixed ?_
    split <;> exact solid_fixed rfl
  · dsimp only
    split
    · exact shown_refuse
    · split
      · exact shown_fixed (.append_right _ (solid_fixed rfl))
      · refine shown_filledByNumbers ?_ _
        exact opens_append (opens_append (opens_append (opens_append (by decide) _) _) _) _

section

variable (texts : ∀ o ∈ s.operands, Solid o.text)
include texts

theorem shown_diagonal {x : Operand} {rest : List Operand} (eq : s.operands = x :: rest) :
    Shown s (diagonal x s) := by
  unfold diagonal
  split
  · exact shown_verbatim
  · split
    · exact shown_operand texts eq ""
    · exact shown_call (solid_fixed rfl)
    · exact shown_call (solid_fixed rfl)
    · exact shown_call (solid_fixed rfl)
    · exact shown_refuse

theorem shown_diag : Shown s (diag s) := by
  unfold diag
  split
  · exact shown_diagonal texts ‹_›
  · exact shown_diagonal texts ‹_›
  · exact shown_refuse

omit texts in
theorem shown_ofOne {rule : Operand → Rule} (one : ∀ {x}, s.operands = [x] → Shown s (rule x s)) :
    Shown s (ofOne rule s) := by
  unfold ofOne
  split
  · exact one ‹_›
  · exact shown_refuse

omit texts in
theorem shown_applied (shape : Shape) (function : String) {typing : Typing} {effects : List Effect} :
    Shown s (.ok ⟨applied shape function, typing, effects⟩) := by
  refine shown_format (opens_append (opens_append (opens_append ?_ _) _) _)
  unfold library
  split <;> decide

omit texts in
theorem shown_abs : Shown s (abs s) := by
  refine shown_ofOne fun _ => ?_
  dsimp only
  split
  · exact shown_verbatim
  · exact shown_applied _ _

theorem shown_rounded {x : Operand} {rest : List Operand} (eq : s.operands = x :: rest)
    (places : Option Operand) : Shown s (rounded x places s) := by
  unfold rounded
  dsimp only
  split
  · exact shown_verbatim
  · split
    · exact shown_operand texts eq ""
    · split
      · exact shown_applied _ _
      · refine shown_format (opens_append ?_ _)
        unfold library
        split <;> decide

theorem shown_round : Shown s (round s) := by
  unfold round
  split
  · exact shown_rounded texts ‹_› _
  · exact shown_rounded texts ‹_› _
  · exact shown_refuse

omit texts in
theorem shown_floor : Shown s (floor s) := by
  refine shown_ofOne fun _ => ?_
  dsimp only
  split
  · exact shown_verbatim
  · exact shown_applied _ _

omit texts in
theorem shown_part : Shown s (part s) :=
  shown_ofOne fun _ => shown_format (opens_append (opens_append (by decide) _) _)

/-! ### Sizes -/

omit texts in
theorem solid_receiver (x : Operand) (h : Solid x.text) : Solid (receiver x) := by
  unfold receiver
  split
  · exact h
  · exact .append_right _ (solid_fixed rfl)

omit texts in
theorem shown_sizeOfAxes (temporary : ∀ node d, Solid (s.state.temporaryName node d)) (x : Operand)
    (axes : Nat) : Shown s (sizeOfAxes x axes s) := by
  unfold sizeOfAxes extentsOf
  split
  · have list : ∀ members, Solid (extentList (receiver x) members) := fun _ =>
      .append_right _ (solid_fixed rfl)
    show Shown s (if _ then _ else _)
    split
    · exact shown_fixed (list _)
    · split
      · exact shown_fixed (.append_right _ (solid_fixed rfl))
      · exact shown_fixed (temporary _ _)
  · exact .error _

theorem shown_size (temporary : ∀ node d, Solid (s.state.temporaryName node d)) : Shown s (size s) := by
  have owner : ∀ x ∈ s.operands, ∀ member, Solid (receiver x ++ member) := fun x mem member =>
    (solid_receiver x (texts x mem)).append_left member
  unfold size
  split
  case h_1 x eq =>
    split
    · exact shown_verbatim
    · unfold sizeOf
      split
      · exact shown_fixed (owner x (by simp [eq]) _)
      · exact shown_fixed (owner x (by simp [eq]) _)
      · exact shown_sizeOfAxes temporary x 2
      · exact shown_sizeOfAxes temporary x 3
      · exact shown_verbatim
  case h_2 x axis eq =>
    split
    · exact shown_verbatim
    · unfold sizeAlong
      split
      · exact shown_fixed ((owner x (by simp [eq]) _).append_left _)
      · exact shown_verbatim
  · exact shown_refuse

theorem shown_length : Shown s (length s) := by
  unfold length
  split
  case h_1 x eq =>
    split
    · exact shown_operand texts eq ".n_elem"
    · exact shown_format (by decide)
  · exact shown_refuse

/-! ### Along an axis -/

omit texts in
theorem shown_reduced (function : String) {typing : Typing} {effects : List Effect} :
    Shown s (.ok ⟨reduced function, typing, effects⟩) :=
  shown_format (opens_append (opens_append (by decide) _) _)

omit texts in
theorem shown_reducedAlong (function axis : String) {typing : Typing} {effects : List Effect} :
    Shown s (.ok ⟨reducedAlong function axis, typing, effects⟩) :=
  shown_format (opens_append (opens_append (opens_append (opens_append (by decide) _) _) _) _)

omit texts in
theorem shown_truthOfMatrix (x : Operand) : Shown s (truthOfMatrix x s) := by
  unfold truthOfMatrix
  dsimp only
  split
  · split
    · exact shown_reducedAlong _ _
    · exact shown_reducedAlong _ _
    · exact shown_reducedAlong _ _
  · exact shown_reduced _

theorem shown_truthReduction : Shown s (truthReduction s) := by
  unfold truthReduction
  split
  · exact shown_verbatim
  case h_2 x rest eq =>
    dsimp only
    split
    · exact shown_verbatim
    · split
      · exact shown_operand texts eq ""
      · exact shown_reduced _
      · exact shown_reduced _
      · exact shown_truthOfMatrix x
      · exact shown_call (.append_right _ (solid_fixed rfl))
      · exact shown_verbatim

omit texts in
theorem shown_extremum : Shown s (extremum s) := by
  unfold extremum
  split
  · exact shown_verbatim
  · split
    · exact shown_verbatim
    · split
      · exact shown_call (.append_right _ (solid_fixed rfl))
      · unfold extremumOfArrays
        dsimp only
        split
        · exact shown_reduced _
        · exact shown_reducedAlong _ _
        · split
          · exact shown_reducedAlong _ _
          · exact shown_reducedAlong _ _
          · exact shown_reducedAlong _ _
        · exact shown_verbatim

omit texts in
theorem shown_sum : Shown s (sum s) := by
  have along : ∀ x axis, Shown s (sumOf x axis s) := by
    intro x axis
    unfold sumOf
    split
    · exact shown_verbatim
    · dsimp only
      split
      · exact shown_reduced _
      · exact shown_reducedAlong _ _
      · exact shown_reducedAlong _ _
  unfold sum
  split
  · exact along _ _
  · exact along _ _
  · exact shown_refuse

omit texts in
theorem shown_fourier : Shown s (fourier s) := by
  unfold fourier
  split
  · exact shown_refuse
  case h_2 x rest _ =>
    split
    · exact shown_verbatim
    · have call : ∀ typing, Solid ((transformCall x s).1.render { s.node with typing } s.texts) := by
        intro typing
        unfold transformCall
        split
        · exact solid_format (opens_append (opens_append (by decide) _) _)
        · exact solid_format (opens_append (opens_append (by decide) _) _)
        · unfold transformAlong
          dsimp only
          split
          · split
            · exact solid_format (opens_append (opens_append (by decide) _) _)
            · exact solid_format (opens_append (opens_append (by decide) _) _)
          · split
            · exact solid_format (opens_append (opens_append (opens_append (opens_append (by decide) _) _) _) _)
            · exact solid_format (opens_append (opens_append (opens_append (opens_append (by decide) _) _) _) _)
        · exact solid_join (.append_right _ (solid_fixed rfl)) _ _
      exact .ok call

omit texts in
theorem shown_interp1 : Shown s (interp1 s) := by
  unfold interp1
  dsimp only
  split
  · split
    · exact shown_call (solid_fixed rfl)
    · exact shown_call (solid_fixed rfl)
  · exact shown_call (solid_fixed rfl)

end

end BuiltinRule

/-! ## The rule that a node gets -/

namespace Rule

variable {s : Site}

theorem shown_ofBareName? {b : Builtin} {rule : Rule} (eq : ofBareName? b = some rule) :
    Shown s (rule s) := by
  cases b <;> first | cases eq; done | obtain rfl := Option.some.inj eq
  case toc => exact BuiltinRule.shown_toc
  case clear | close | plot | hold => exact BuiltinRule.shown_housekeeping
  all_goals exact shown_fixed (solid_fixed rfl)

section

variable (h : s.Filled)
include h

theorem shown_ofCall? {b : Builtin} {rule : Rule} (eq : ofCall? b = some rule) : Shown s (rule s) := by
  cases b <;> first | cases eq; done | obtain rfl := Option.some.inj eq
  case abs => exact BuiltinRule.shown_abs
  case land | lor => exact .ok fun _ => .append_right _ (solid_fixed rfl)
  case lnot => exact BuiltinRule.shown_ofOne fun _ => shown_negation _
  case any | all => exact BuiltinRule.shown_truthReduction h.texts
  case size => exact BuiltinRule.shown_size h.texts h.temporary
  case length => exact BuiltinRule.shown_length h.texts
  case min | max => exact BuiltinRule.shown_extremum
  case eye => exact BuiltinRule.shown_eye
  case transpose => exact BuiltinRule.shown_ofOne fun _ => shown_transposed _
  case ctranspose => exact BuiltinRule.shown_ofOne fun _ => shown_conjugated _
  case flipud | conj => exact BuiltinRule.shown_ofOne fun _ => shown_format (by decide)
  case zeros | ones => exact BuiltinRule.shown_filled
  case round => exact BuiltinRule.shown_round h.texts
  case floor => exact BuiltinRule.shown_floor
  case rand => exact BuiltinRule.shown_rand
  case nextpow2 | hankel | linspace => exact shown_call (solid_fixed rfl)
  case fft | ifft => exact BuiltinRule.shown_fourier
  case interp1 => exact BuiltinRule.shown_interp1
  case sum => exact BuiltinRule.shown_sum
  case real | imag => exact BuiltinRule.shown_part
  case diag => exact BuiltinRule.shown_diag h.texts
  case tic => exact shown_fixed (solid_fixed rfl)
  case toc => exact BuiltinRule.shown_toc
  all_goals exact BuiltinRule.shown_housekeeping

/-- How many operands a node of a category has. -/
theorem arity_of_admits : (s.node.category.isOperator ∨ s.node.category = .row → s.operands ≠ [])
    ∧ (s.node.category = .range → s.operands.length = 2 ∨ s.operands.length = 3) := by
  have admits := h.sound.admits
  refine ⟨fun kind none => ?_, fun kind => ?_⟩
  · rw [none] at admits
    cases category : s.node.category <;> rw [category] at admits kind <;>
      first | cases admits; done | exact kind.elim nofun nofun
  · rw [kind] at admits
    have count := (Bool.and_eq_true _ _ |>.mp admits).1
    rw [List.length_map] at count
    simpa using count

theorem shown_ofCategory? (inline : s.node.category.isInline) (single : s.node.category ≠ .params)
    (single' : s.node.category ≠ .returns) {rule : Rule}
    (eq : ofCategory? s.node.category = some rule) : Shown s (rule s) := by
  obtain ⟨some, three⟩ := arity_of_admits h
  have value := fun d => shown_value h (d := d)
  have named := shown_var h
  cases category : s.node.category <;>
    rw [category] at eq inline single single' some three value named <;>
    first | cases eq; done | cases inline; done | obtain rfl := Option.some.inj eq
  case params => exact absurd rfl single
  case returns => exact absurd rfl single'
  case var => exact named rfl
  case get | set => exact shown_subscript
  case int => exact value _ (.inl rfl)
  case float => exact value _ (.inr rfl)
  case imag => exact shown_fixed (.append_right _ (solid_fixed rfl))
  case str => exact shown_fixed ⟨'\x22', by simp, by decide⟩
  case matrix => exact shown_matrix h
  case row => exact shown_row h (some (.inr rfl))
  case neg => exact .ok fun _ => Template.solid_join (solid_fixed rfl) _ _
  case not => exact shown_negation _
  case transpose => exact shown_transposed _
  case ctranspose => exact shown_conjugated _
  case paren => exact shown_format (by decide)
  case range => exact shown_range (three rfl)
  case all => exact shown_all
  case last => exact shown_last
  case mul => exact shown_mul h.texts (some (.inl rfl))
  case elMul => exact shown_elMul h.texts (some (.inl rfl))
  case pow | elPow => exact shown_power h.texts
  case elRightDiv => exact shown_elRightDiv h.texts
  case elLeftDiv => exact shown_elLeftDiv h.texts
  case rightDiv =>
    exact shown_structural h.texts (some (.inl rfl)) _ solid_solveRight (shown_elRightDiv h.texts)
  case leftDiv =>
    exact shown_structural h.texts (some (.inl rfl)) _ (fun _ => solid_solveLeft)
      (shown_elLeftDiv h.texts)
  all_goals exact shown_between h.texts (some (.inl rfl)) _

/-- What stands for a node before it is resolved is its name or its category. -/
theorem solid_label : Solid s.node.label := by
  unfold Node.label
  split
  case isTrue =>
    cases s.node.category <;> exact solid_fixed rfl
  case isFalse some => exact solid_name h (h.shaped.name.mp some)

/-- Whatever rule an expression gets, it writes something. -/
theorem shown_select (inline : s.node.category.isInline) (single : s.node.category ≠ .params)
    (single' : s.node.category ≠ .returns) : Shown s (select s.tree s.node s) := by
  unfold select
  cases named : (builtinOf? s.tree s.node).bind (ofBuiltin? s.node.category) with
  | some rule =>
    obtain ⟨b, -, found⟩ := Option.bind_eq_some_iff.mp named
    cases category : s.node.category <;> rw [category] at inline found <;>
      first | cases inline; done | cases found | skip
    case var => exact shown_ofBareName? found
    case get => exact shown_ofCall? h found
  | none =>
    cases category : ofCategory? s.node.category with
    | some rule => exact shown_ofCategory? h inline single single' category
    | none => exact shown_fixed (solid_label h)

end

end Rule

end MatrixScript
