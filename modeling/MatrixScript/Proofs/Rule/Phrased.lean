/-
# `Proofs.Rule.Phrased` — rules of categories put phrases together

One lemma for each rule, in the order of their modules: where the texts of the operands
are phrases, the text that a rule gives is one, and so is what it hoists, as long as the
helpers that it takes into use are in use (`Site.Tells`).

Only rows and the names of a function's parameters and outputs are lists, with commas
between no delimiters.  A row is one where all its elements are scalars; then the matrix
around it is plain, and puts it in braces.
-/
import MatrixScript.Proofs.Cpp.Phrase
import MatrixScript.Proofs.Rule.SelectAgrees

namespace MatrixScript

open Cpp

/-- Names are words, and strings have no line ends; texts are the same. -/
def Likeness.words : Likeness where
  __ := Likeness.same
  plain x := ∀ c ∈ x.toList, Token.isWordRest c
  quotable s := '\n' ∉ s.toList
  named _ _ := rfl
  hidden _ _ := rfl
  elapsed := Text.elapsed_on_one_line
  string _ := rfl

/-- The texts of these nodes are items of a list. -/
def Category.isListing : Category → Bool
  | .row | .params | .returns => true
  | _ => false

/-- Nothing is hoisted but phrases. -/
def Effect.Tells (I : Idiom) : Effect → Prop
  | .hoist _ text _ => Phrase I false text
  | _ => True

/-- Lines that are phrases. -/
def Cpp.Prints (I : Idiom) (text : String) : Prop :=
  ∃ ls, text = Text.joined "\n" ls ∧ ∀ l ∈ ls, Phrase I true l ∧ l ≠ ""

namespace Site

/-- Everything that the rule of a node can read is a phrase. -/
structure Phrased (I : Idiom) (s : Site) : Prop where
  self : s.Alike .words False s
  operands : ∀ o ∈ s.operands, Phrase I o.node.category.isListing o.text
  rendered : ∀ o ∈ s.operands, Phrase I o.node.category.isListing o.node.text
  reach : ∀ o ∈ s.operands, ∀ c ∈ o.node.children,
    Phrase I (s.tree.category c).isListing (s.tree.node c).text
  /-- a list is a row of several plain elements -/
  rows : ∀ o ∈ s.operands, Phrase I false o.text ∨ (Rule.isPlain s o ∧ 1 < Rule.widthOf o)
  ranges : ∀ o ∈ s.operands, o.node.category = .range → o.shape ≠ .scalar
  temporary : ∀ node d, Phrase I false (s.state.temporaryName node d)

/-- A failure says a phrase; the text of an answer is one, if the helpers that it takes
into use are in use. -/
def Tells (I : Idiom) (s : Site) (R : String → Prop) : Except Error Outcome → Prop
  | .error e => Phrase I true e.message
  | .ok o => (∀ e ∈ o.effects, e.Tells I)
      ∧ ((∀ i, Effect.use i ∈ o.effects → i ∈ I.used) → R (s.written o))

variable {I : Idiom} {s : Site} {R : String → Prop} {effects : List Effect} {t : Template}

namespace Tells

theorem keep (quiet : ∀ e ∈ effects, e.Tells I)
    (text : (∀ i, Effect.use i ∈ effects → i ∈ I.used) → R (t.render s.node s.texts)) :
    s.Tells I R (s.keep t effects) := ⟨quiet, text⟩

theorem typed {d : Datatype} (quiet : ∀ e ∈ effects, e.Tells I)
    (text : (∀ i, Effect.use i ∈ effects → i ∈ I.used) →
      R (t.render { s.node with typing := .of d } s.texts)) :
    s.Tells I R (s.typed d t effects) := ⟨quiet, text⟩

theorem withTyping {typing : Typing} (quiet : ∀ e ∈ effects, e.Tells I)
    (text : (∀ i, Effect.use i ∈ effects → i ∈ I.used) →
      R (t.render { s.node with typing } s.texts)) :
    s.Tells I R (s.withTyping typing t effects) := ⟨quiet, text⟩

theorem nothing : ∀ e ∈ ([] : List Effect), e.Tells I := nofun

theorem report {node : NodeId} {problem : Problem} {message : String} :
    ∀ e ∈ [Effect.report node problem message], e.Tells I := List.forall_mem_singleton.mpr trivial

theorem use {i : Include} : ∀ e ∈ [Effect.use i], e.Tells I := List.forall_mem_singleton.mpr trivial

theorem append {es fs : List Effect} (h : ∀ e ∈ es, e.Tells I) (h' : ∀ e ∈ fs, e.Tells I) :
    ∀ e ∈ es ++ fs, e.Tells I := List.forall_mem_append.mpr ⟨h, h'⟩

theorem malformed : s.Tells I R (.error .malformedTree) :=
  phrase_fixed I "Malformed tree" rfl

end Tells

/-! ## What texts of operands are put into -/

variable {node : Node}

theorem phrases_texts {list : Bool} (texts : ∀ o ∈ s.operands, Phrase I list o.text) :
    ∀ t ∈ s.texts, Phrase I list t := List.forall_mem_map.mpr texts

section

variable (texts : ∀ o ∈ s.operands, Phrase I false o.text)
include texts

theorem phrase_between {operator : String}
    (separates : Place.read false ⟨[], .unknown⟩ operator.toList = some ⟨[], .apart⟩) :
    Phrase I false ((Rule.between operator).render node s.texts) := by
  have inner : Phrase I false (Text.joined operator s.texts) :=
    piece_joined separates (phrases_texts texts)
  exact ((opening I "" (q := ⟨[], .apart⟩) rfl).say inner).put "" rfl

/-- A call that goes on behind an opening parenthesis. -/
theorem phrase_call {opening : String}
    (opens : Piece I false ⟨[], .apart⟩ opening ⟨[')'], .apart⟩) :
    Phrase I false ((Template.join opening ", " ")").render node s.texts) := by
  have inner : Piece I false ⟨[')'], .apart⟩ (Text.joined ", " s.texts) ⟨[')'], .unknown⟩ :=
    piece_joined rfl fun t mem => (phrases_texts texts t mem).within nofun
  exact ((opens.append inner).put ")" (r := ⟨[], .apart⟩) rfl).loosen

theorem says_one {o : Operand} {os : List Operand} (eq : s.operands = o :: os) :
    ∀ key ∈ [['0']], Template.Says I node s.texts key := by
  rw [Site.texts, eq]
  exact Template.says_one (texts o (by simp [eq]))

theorem says_two {a b : Operand} {os : List Operand} (eq : s.operands = a :: b :: os) :
    ∀ key ∈ [['0'], ['1']], Template.Says I node s.texts key := by
  rw [Site.texts, eq]
  exact Template.says_two (texts a (by simp [eq])) (texts b (by simp [eq]))

theorem says_three {a b c : Operand} {os : List Operand} (eq : s.operands = a :: b :: c :: os) :
    ∀ key ∈ [['0'], ['1'], ['2']], Template.Says I node s.texts key := by
  rw [Site.texts, eq]
  exact Template.says_three (texts a (by simp [eq])) (texts b (by simp [eq]))
    (texts c (by simp [eq]))

end

namespace Phrased

variable (h : s.Phrased I)
include h

theorem name (named : s.node.category.isNamed) : ∀ c ∈ s.name.toList, Token.isWordRest c :=
  h.self.plain named

theorem verbatim (named : s.node.category.isNamed)
    (texts : ∀ o ∈ s.operands, Phrase I false o.text) :
    Phrase I false (s.verbatim.render node s.texts) :=
  phrase_call texts (Piece.put (.name (h.name named)) "(" rfl)

theorem refuse (named : s.node.category.isNamed)
    (texts : ∀ o ∈ s.operands, Phrase I false o.text) : s.Tells I (Phrase I false) s.refuse :=
  .keep Tells.report fun _ => h.verbatim named texts

end Phrased

end Site

namespace Rule

open Site.Tells

variable {I : Idiom} {s : Site}

/-! ## Operators -/

section

variable (texts : ∀ o ∈ s.operands, Phrase I false o.text)

theorem checkNumeric_tells (operation : String) : ∀ e ∈ checkNumeric operation s, e.Tells I := by
  unfold checkNumeric
  split
  · exact report
  · exact nothing

theorem productShape_tells (shape : Shape) (os : List Operand) :
    ∀ e ∈ (productShape shape os).2, e.Tells I := by
  induction os generalizing shape with
  | nil => exact nothing
  | cons o os ih =>
    unfold productShape
    split
    · exact ih _
    · exact List.forall_mem_cons.mpr ⟨trivial, ih _⟩

include texts

theorem add_tells : s.Tells I (Phrase I false) (add s) :=
  keep (checkNumeric_tells _) fun _ => Site.phrase_between texts rfl

theorem sub_tells : s.Tells I (Phrase I false) (sub s) :=
  keep (checkNumeric_tells _) fun _ => Site.phrase_between texts rfl

theorem mul_tells : s.Tells I (Phrase I false) (mul s) := by
  unfold mul
  split
  · exact keep nothing fun _ => Site.phrase_between texts rfl
  · split
    · exact keep report fun _ => Site.phrase_between texts rfl
    · split
      · exact malformed
      · exact typed (productShape_tells _ _) fun _ => Site.phrase_between texts rfl

theorem elMul_tells : s.Tells I (Phrase I false) (elMul s) := by
  refine keep (checkNumeric_tells _) fun _ => ?_
  split
  · exact Site.phrase_between texts rfl
  · exact Site.phrase_between texts rfl

omit texts in
theorem read_powerFunction :
    Place.read false ⟨[], .apart⟩ (powerFunction s ++ "(").toList = some ⟨[')'], .apart⟩ := by
  unfold powerFunction
  split
  · rfl
  · split
    · rfl
    · rfl

theorem power_tells : s.Tells I (Phrase I false) (power s) := by
  have phrases := Site.phrases_texts texts
  unfold power
  split
  · exact malformed
  case h_2 first rest eq =>
    rw [eq] at phrases
    obtain ⟨here, there⟩ := List.forall_mem_cons.mp phrases
    exact keep nothing fun _ => phrase_nested read_powerFunction here there

theorem comparison_tells {operator : String}
    (separates : Place.read false ⟨[], .unknown⟩ operator.toList = some ⟨[], .apart⟩) :
    s.Tells I (Phrase I false) (comparison operator s) := by
  refine keep ?_ fun _ => Site.phrase_between texts separates
  split
  · exact report
  · exact nothing

theorem logical_tells {operator : String}
    (separates : Place.read false ⟨[], .unknown⟩ operator.toList = some ⟨[], .apart⟩) :
    s.Tells I (Phrase I false) (logical operator s) :=
  keep nothing fun _ => Site.phrase_between texts separates

/-! ### One operand -/

/-- Nothing but the operand between the ends. -/
theorem phrase_around {front : String} {o : Operand} (eq : s.operands = [o])
    (opens : Place.read false ⟨[], .apart⟩ front.toList = some ⟨[')'], .apart⟩) (node : Node) :
    Phrase I false ((Template.join front "" ")").render node s.texts) := by
  rw [Site.texts, eq]
  exact (((opening I front opens).say (texts o (by simp [eq]))).put ")" (r := ⟨[], .apart⟩) rfl).loosen

variable {o : Operand} (eq : s.operands = [o])
include eq

theorem neg_tells : s.Tells I (Phrase I false) (neg s) :=
  keep nothing fun _ => phrase_around texts eq rfl _

theorem negation_tells (typing : Typing) : s.Tells I (Phrase I false) (negation typing s) := by
  refine withTyping nothing fun _ => .loosen (q := ⟨[], .apart⟩) ?_
  split
  · exact Template.piece_format (Site.says_one texts eq) (n := 1) rfl
  · exact Template.piece_format (Site.says_one texts eq) (n := 1) rfl

theorem transposed_tells (typing : Typing) : s.Tells I (Phrase I false) (transposed typing s) := by
  unfold transposed turned
  rw [eq]
  split
  · refine withTyping nothing fun _ => .loosen (q := ⟨[], .apart⟩) ?_
    exact Template.piece_format (Site.says_one texts eq) (n := 1) rfl
  · exact typed nothing fun _ => phrase_around texts eq rfl _

theorem conjugated_tells (typing : Typing) : s.Tells I (Phrase I false) (conjugated typing s) := by
  unfold conjugated turned
  rw [eq]
  split
  · exact withTyping nothing fun _ => phrase_around texts eq rfl _
  · refine typed nothing fun _ => ?_
    split
    · exact phrase_around texts eq rfl _
    · exact phrase_around texts eq rfl _

theorem paren_tells : s.Tells I (Phrase I false) (paren s) :=
  keep nothing fun _ => .loosen (q := ⟨[], .apart⟩)
    (Template.piece_format (Site.says_one texts eq) (n := 1) rfl)

end

/-! ## Divisions -/

section

/-- Two texts with a fixed piece between them. -/
theorem phrase_both {a b k : String} (ha : Phrase I false a) (hb : Phrase I false b)
    (separates : Place.read false ⟨[], .unknown⟩ k.toList = some ⟨[], .apart⟩) :
    Phrase I false (a ++ k ++ b) := (Piece.put ha k separates).say hb

/-- A text in parentheses. -/
theorem phrase_parens {a : String} (ha : Phrase I false a) : Phrase I false ("(" ++ a ++ ")") :=
  (((opening I "(" rfl).say ha).put ")" (r := ⟨[], .apart⟩) rfl).loosen

variable {q : Quotient} {o : Operand} (hq : Phrase I false q.text) (ho : Phrase I false o.text)
include hq ho

theorem divideBy_phrased (typed : Bool) : Phrase I false (divideBy typed q o).text := by
  simp only [divideBy]
  split
  · exact Piece.put (q := ⟨[], .unknown⟩) (phrase_both hq ho (k := "/") rfl) ".0"
      (r := ⟨[], .word ['0']⟩) rfl |>.loosen
  · split
    · exact phrase_both hq ho rfl
    · exact phrase_both hq ho rfl

omit hq in
theorem divideInto_phrased (typed literal : Bool) {divisor : String}
    (hd : Phrase I false divisor) : Phrase I false (divideInto typed literal q divisor o).text := by
  simp only [divideInto]
  split
  · exact Piece.put (q := ⟨[], .unknown⟩) (phrase_both ho hd (k := "/") rfl) ".0"
      (r := ⟨[], .word ['0']⟩) rfl |>.loosen
  · split
    · exact phrase_both ho hd rfl
    · exact phrase_both ho hd rfl

theorem divideIntoQuotient_phrased (typed : Bool) :
    Phrase I false (divideIntoQuotient typed q o).text :=
  divideInto_phrased ho typed false (phrase_parens hq)

theorem solveRight_phrased : Phrase I false (solveRight q o).text := by
  unfold solveRight
  split
  · have operand := (opening I "arma::solve(" (q := ⟨[')'], .apart⟩) rfl).say ho
    have both := (operand.put ".t(), " (r := ⟨[')'], .apart⟩) rfl).say hq
    exact (both.put ".t()).t()" (r := ⟨[], .apart⟩) rfl).loosen
  · split
    · exact phrase_both hq ho rfl
    · exact phrase_both hq ho rfl

theorem solveLeft_phrased : Phrase I false (solveLeft q o).text := by
  unfold solveLeft
  split
  · have quotient := (opening I "arma::solve(" (q := ⟨[')'], .apart⟩) rfl).say hq
    have both := (quotient.put ", " (r := ⟨[')'], .apart⟩) rfl).say ho
    exact (both.put ")" (r := ⟨[], .apart⟩) rfl).loosen
  · have quotient := (opening I "(" (q := ⟨[')'], .apart⟩) rfl).say hq
    split
    · exact (quotient.put ")*1.0/" (r := ⟨[], .apart⟩) rfl).say ho
    · exact (quotient.put ")/" (r := ⟨[], .apart⟩) rfl).say ho

end

theorem foldl_phrased {step : Quotient → Operand → Quotient}
    (one : ∀ {q o}, Phrase I false q.text → Phrase I false o.text → Phrase I false (step q o).text)
    {os : List Operand} (rest : ∀ o ∈ os, Phrase I false o.text) {q : Quotient}
    (hq : Phrase I false q.text) : Phrase I false (os.foldl step q).text := by
  induction os generalizing q with
  | nil => exact hq
  | cons o os ih =>
    obtain ⟨first, rest⟩ := List.forall_mem_cons.mp rest
    exact ih rest (one hq first)

theorem quotientShape_tells (operator : String) (q : Quotient) (o : Operand) :
    ∀ e ∈ (quotientShape s operator q o).2, e.Tells I := by
  unfold quotientShape
  split
  · exact nothing
  · exact report

theorem quotient_phrased (operator : String) {step : Quotient → Operand → Quotient}
    (one : ∀ {q o}, Phrase I false q.text → Phrase I false o.text → Phrase I false (step q o).text)
    {os : List Operand} (rest : ∀ o ∈ os, Phrase I false o.text) {q : Quotient}
    (hq : Phrase I false q.text) : Phrase I false (quotient s operator step q os).1.text
      ∧ ∀ e ∈ (quotient s operator step q os).2, e.Tells I := by
  induction os generalizing q with
  | nil => exact ⟨hq, nothing⟩
  | cons o os ih =>
    obtain ⟨first, rest⟩ := List.forall_mem_cons.mp rest
    obtain ⟨final, quiet⟩ := ih rest
      (q := { step q o with shape := (quotientShape s operator q o).1 }) (one hq first)
    exact ⟨final, append (quotientShape_tells operator q o) quiet⟩

section

variable (texts : ∀ o ∈ s.operands, Phrase I false o.text)
include texts

theorem elRightDiv_tells : s.Tells I (Phrase I false) (elRightDiv s) := by
  unfold elRightDiv
  split
  · exact malformed
  case h_2 first rest eq =>
    rw [eq] at texts
    obtain ⟨here, there⟩ := List.forall_mem_cons.mp texts
    refine withTyping (checkNumeric_tells _) fun _ => ?_
    exact foldl_phrased (fun hq ho => divideBy_phrased hq ho _) there here

theorem elLeftDiv_tells : s.Tells I (Phrase I false) (elLeftDiv s) := by
  unfold elLeftDiv
  split
  · exact malformed
  case h_2 first rest eq =>
    rw [eq] at texts
    obtain ⟨here, there⟩ := List.forall_mem_cons.mp texts
    refine withTyping (checkNumeric_tells _) fun _ => ?_
    dsimp only
    cases rest with
    | nil => exact here
    | cons second more =>
      obtain ⟨next, more⟩ := List.forall_mem_cons.mp there
      exact foldl_phrased (fun hq ho => divideIntoQuotient_phrased hq ho _) more
        (divideInto_phrased next _ _ here)

theorem structural_tells {operator : String}
    (separates : Place.read false ⟨[], .unknown⟩ operator.toList = some ⟨[], .apart⟩)
    {step : Quotient → Operand → Quotient}
    (one : ∀ {q o}, Phrase I false q.text → Phrase I false o.text → Phrase I false (step q o).text)
    {scalars : Rule} (tells : s.Tells I (Phrase I false) (scalars s)) :
    s.Tells I (Phrase I false) (structural operator step scalars s) := by
  unfold structural
  split
  · exact keep nothing fun _ => Site.phrase_between texts separates
  · split
    · exact tells
    · split
      · exact malformed
      case h_2 first rest eq =>
        rw [eq] at texts
        obtain ⟨here, there⟩ := List.forall_mem_cons.mp texts
        obtain ⟨final, quiet⟩ := quotient_phrased (s := s) operator one there
          (q := .ofOperand first) here
        exact typed (append (checkNumeric_tells _) quiet) fun _ => final

theorem rightDiv_tells : s.Tells I (Phrase I false) (rightDiv s) :=
  structural_tells texts rfl solveRight_phrased (elRightDiv_tells texts)

theorem leftDiv_tells : s.Tells I (Phrase I false) (leftDiv s) :=
  structural_tells texts rfl solveLeft_phrased (elLeftDiv_tells texts)

end

/-! ## Ranges, axes, subscripts -/

theorem phrase_zeroBased {o : Operand} (ho : Phrase I false o.text) :
    Phrase I false (zeroBased o) := by
  unfold zeroBased
  split
  · exact phrase_int _
  · exact (Piece.put ho "-1" (r := ⟨[], .word ['1']⟩) rfl).loosen

theorem range_operands (h : s.Sound) (category : s.node.category = .range) :
    (∃ start stop, s.operands = [start, stop])
      ∨ ∃ start step stop, s.operands = [start, step, stop] := by
  have admits := h.admits
  rw [category] at admits
  match operands : s.operands with
  | [start, stop] => exact .inl ⟨start, stop, rfl⟩
  | [start, step, stop] => exact .inr ⟨start, step, stop, rfl⟩
  | [] | [_] | _ :: _ :: _ :: _ :: _ =>
    rw [operands] at admits
    simp [Category.admits] at admits

section

variable (h : s.Phrased I) (texts : ∀ o ∈ s.operands, Phrase I false o.text)
include h texts

theorem rangeOfPositions_tells (category : s.node.category = .range) :
    s.Tells I (Phrase I false) (rangeOfPositions s) := by
  unfold rangeOfPositions
  rcases range_operands h.self.sound category with ⟨start, stop, eq⟩ | ⟨start, step, stop, eq⟩
  · rw [eq] at texts ⊢
    refine typed nothing fun _ => ?_
    have first := (opening I "arma::span(" (q := ⟨[')'], .apart⟩) rfl).say
      (phrase_zeroBased (texts start (by simp)))
    have second := (first.put ", " (r := ⟨[')'], .apart⟩) rfl).say
      (phrase_zeroBased (texts stop (by simp)))
    exact (second.put ")" (r := ⟨[], .apart⟩) rfl).loosen
  · rw [eq] at texts ⊢
    refine typed use fun used => ?_
    have helper : Piece I false ⟨[], .apart⟩ "m2cpp::uspan(" ⟨[')'], .apart⟩ :=
      piece_helper (used .uspan List.mem_cons_self) nofun rfl
    have first := helper.say (phrase_zeroBased (texts start (by simp)))
    have second := (first.put ", " (r := ⟨[')'], .apart⟩) rfl).say (texts step (by simp))
    have third := (second.put ", " (r := ⟨[')'], .apart⟩) rfl).say
      (phrase_zeroBased (texts stop (by simp)))
    exact (third.put ")" (r := ⟨[], .apart⟩) rfl).loosen

omit h texts in
/-- The type of the node in a pattern. -/
theorem says_type {d : Datatype} {keys : List (List Char)}
    (rest : ∀ key ∈ keys, Template.Says I { s.node with typing := .of d } s.texts key) :
    ∀ key ∈ "type".toList :: keys, Template.Says I { s.node with typing := .of d } s.texts key :=
  List.forall_mem_cons.mpr ⟨⟨d.typeName, rfl, phrase_name (word_typeName d)⟩, rest⟩

theorem rangeOfValues_tells (category : s.node.category = .range) :
    s.Tells I (Phrase I false) (rangeOfValues s) := by
  have span : Include.span ∈ I.used → Piece I false ⟨[], .apart⟩ "m2cpp::span<" ⟨[], .apart⟩ :=
    fun mem => piece_helper_typed mem nofun rfl
  have uspan : Include.uspan ∈ I.used → Piece I false ⟨[], .apart⟩ "m2cpp::uspan<" ⟨[], .apart⟩ :=
    fun mem => piece_helper_typed mem nofun rfl
  unfold rangeOfValues
  rcases range_operands h.self.sound category with ⟨start, stop, eq⟩ | ⟨start, step, stop, eq⟩
  · rw [eq]
    refine typed use fun used => .loosen (q := ⟨[], .apart⟩) ?_
    exact Template.piece_format_append (n := 3) (says_type (Site.says_two texts eq)) "m2cpp::span<"
      "%(type)s>(%(0)s, %(1)s)" (by decide) (span (used .span List.mem_cons_self)) rfl
  · rw [eq]
    dsimp only
    split
    · refine typed use fun used => .loosen (q := ⟨[], .apart⟩) ?_
      exact Template.piece_format_append (n := 4) (says_type (Site.says_three texts eq))
        "m2cpp::uspan<" "%(type)s>(%(0)s, %(1)s, %(2)s)" (by decide) (uspan (used .uspan List.mem_cons_self)) rfl
    · refine typed use fun used => .loosen (q := ⟨[], .apart⟩) ?_
      exact Template.piece_format_append (n := 4) (says_type (Site.says_three texts eq))
        "m2cpp::span<" "%(type)s>(%(0)s, %(1)s, %(2)s)" (by decide) (span (used .span List.mem_cons_self)) rfl

theorem range_tells (category : s.node.category = .range) :
    s.Tells I (Phrase I false) (range s) := by
  unfold range
  split
  · exact rangeOfPositions_tells h texts category
  · exact rangeOfValues_tells h texts category

omit h texts in
/-- A range is a column. -/
theorem range_shape {o : Outcome} (ok : range s = .ok o) : o.typing.datatype.shape = .colvec := by
  have shapes : ∀ {t : Template} {d : Datatype} {es : List Effect}, d.shape = .colvec →
      ∀ o, s.typed d t es = .ok o → o.typing.datatype.shape = .colvec := by
    rintro t d es shape o ok
    cases ok
    exact shape
  unfold range at ok
  split at ok
  · unfold rangeOfPositions at ok
    split at ok <;> exact shapes rfl o ok
  · unfold rangeOfValues at ok
    split at ok
    · exact shapes rfl o ok
    · split at ok <;> exact shapes rfl o ok
    · exact shapes rfl o ok

omit h texts in
/-- The member that holds the extent of an axis. -/
theorem piece_axisExtent {axis : Option Nat} {extent : String}
    (found : axis.bind axisExtent? = some extent) {list : Bool} {p : Place} :
    Piece I list p extent ⟨p.closers, .unknown⟩ := by
  obtain ⟨k, -, named⟩ := Option.bind_eq_some_iff.mp found
  refine .name ?_
  unfold axisExtent? at named
  split at named <;>
    first | cases named; done | (cases named; exact List.all_eq_true.mp rfl)

omit texts in
theorem all_tells : s.Tells I (Phrase I false) (all s) := by
  unfold all
  dsimp only
  split
  case h_1 name extent found axis =>
    refine typed use fun used => ?_
    have helper : Piece I false ⟨[], .apart⟩ "m2cpp::uspan(" ⟨[')'], .apart⟩ :=
      piece_helper (used .uspan List.mem_cons_self) nofun rfl
    have named : Phrase I false name := phrase_name (plain_of_subscripted? h.self found)
    have owner := ((helper.put "0, " (r := ⟨[')'], .apart⟩) rfl).say named).put "."
      (r := ⟨[')'], .apart⟩) rfl
    exact ((owner.append (piece_axisExtent axis)).put "-1)" (r := ⟨[], .apart⟩) rfl).loosen
  case h_2 => exact typed nothing fun _ => phrase_fixed I "span::all" rfl

omit texts in
theorem last_tells : s.Tells I (Phrase I false) (last s) := by
  unfold last
  split
  case h_1 => exact keep report fun _ => phrase_fixed I "end" rfl
  case h_2 owner argument found =>
    dsimp only
    split
    case h_1 extent axis =>
      refine typed nothing fun _ => ?_
      have named : Phrase I false (s.tree.node owner).name :=
        phrase_name (h.self.spelt.plain owner (isNamed_of_extentOwner? found))
      exact (named.put "." (r := ⟨[], .apart⟩) rfl).append (piece_axisExtent axis)
    case h_2 => exact typed report fun _ => phrase_fixed I "end" rfl

theorem subscript_tells (named : s.node.category.isNamed) :
    s.Tells I (Phrase I false) (subscript s) := by
  unfold subscript
  split
  case h_1 => exact keep nothing fun _ => h.verbatim named texts
  case h_2 d _ =>
    have text : Phrase I false
        (s.name ++ "(" ++ Text.joined ", " (s.operands.map indexText) ++ ")") := by
      have indices : ∀ t ∈ s.operands.map indexText, Phrase I false t := by
        refine List.forall_mem_map.mpr fun o mem => ?_
        unfold indexText
        split
        · exact texts o mem
        · exact phrase_zeroBased (texts o mem)
      have name : Piece I false ⟨[], .apart⟩ (s.name ++ "(") ⟨[')'], .apart⟩ :=
        Piece.put (.name (h.name named)) "(" rfl
      have arguments : Piece I false ⟨[')'], .apart⟩ (Text.joined ", " (s.operands.map indexText))
          ⟨[')'], .unknown⟩ := piece_joined rfl fun t mem => (indices t mem).within nofun
      exact ((name.append arguments).put ")" (r := ⟨[], .apart⟩) rfl).loosen
    dsimp only
    split
    · exact typed nothing fun _ => text
    · exact keep nothing fun _ => text

end

end Rule

end MatrixScript
