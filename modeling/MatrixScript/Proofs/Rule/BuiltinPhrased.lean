/-
# `Proofs.Rule.BuiltinPhrased` — the rules of built-ins put phrases together

One lemma for each rule again.  Helpers are written by a few of these rules only; each
takes into use the helper that it writes.
-/
import MatrixScript.Proofs.Rule.LinePhrased

namespace MatrixScript

open Cpp

namespace BuiltinRule

open Rule Site.Tells

variable {I : Idiom} {s : Site} {node : Node}

/-! ## Constants, clock, commands -/

theorem constant_tells (c : StorageClass) {text : String} (phrase : Phrase I false text) :
    s.Tells I (Phrase I false) (constant c text s) := typed nothing fun _ => phrase

theorem tic_tells : s.Tells I (Phrase I false) (tic s) :=
  keep (List.forall_mem_singleton.mpr trivial) fun _ => phrase_fixed I "_timer.tic()" rfl

theorem toc_tells : s.Tells I (Phrase I false) (toc s) := by
  have effects : ∀ e ∈ (if s.state.clock.started then [Effect.toc]
      else [.toc, .report s.id .likelyMisuse "toc without a preceding tic"]), e.Tells I := by
    split
    · exact List.forall_mem_singleton.mpr trivial
    · exact List.forall_mem_cons.mpr ⟨trivial, report⟩
  unfold toc
  dsimp only
  split
  · refine keep effects fun _ => ?_
    show Phrase I false "cout << \"Elapsed time = \" << _timer.toc() << endl"
    rw [elapsed_eq]
    have text : Phrase I false (Text.quoted "Elapsed time = ".toList) := phrase_literal (by decide)
    have quoted := (opening I "cout << " (q := ⟨[], .apart⟩) rfl).say text
    exact (quoted.put " << _timer.toc() << endl" (r := ⟨[], .word "ldne".toList⟩) rfl).loosen
  · exact typed effects fun _ => phrase_fixed I "_timer.toc()" rfl

section

variable (texts : ∀ o ∈ s.operands, Phrase I false o.text)

theorem housekeeping_tells (h : s.Phrased I) (named : s.node.category.isNamed)
    (texts : ∀ o ∈ s.operands, Phrase I false o.text) :
    s.Tells I (Phrase I false) (housekeeping s) := by
  have comment := (opening I "// " (q := ⟨[], .apart⟩) rfl).say (phrase_name (h.name named))
  unfold housekeeping
  split
  · exact keep nothing fun _ => comment
  · exact keep nothing fun _ => Site.phrase_call texts (comment.put "(" rfl)

/-! ## Calls -/

/-- No word has a percent sign. -/
theorem no_percent {a : String} (word : ∀ c ∈ a.toList, Token.isWordRest c) : '%' ∉ a.toList :=
  fun mem => absurd (word _ mem) (by decide)

/-- A function of a library. -/
theorem piece_function {scope f : String} (word : ∀ c ∈ f.toList, Token.isWordRest c)
    (opens : Place.read false ⟨[], .apart⟩ scope.toList = some ⟨[], .apart⟩) :
    Piece I false ⟨[], .apart⟩ (scope ++ f) ⟨[], .unknown⟩ :=
  (opening I scope opens).say (phrase_name word)

/-- A call of a function of a library, whose arguments stand in a pattern. -/
theorem phrase_pattern {keys : List (List Char)} {ts : List String}
    (values : ∀ key ∈ keys, Template.Says I node ts key) {scope f arguments : String}
    (word : ∀ c ∈ f.toList, Token.isWordRest c)
    (opens : Place.read false ⟨[], .apart⟩ scope.toList = some ⟨[], .apart⟩)
    (plain : '%' ∉ scope.toList) {n : Nat} {before : Before}
    (h : Template.read keys n ⟨[], .unknown⟩ arguments.toList = some ⟨[], before⟩) :
    Phrase I false ((Template.format (scope ++ f ++ arguments)).render node ts) := by
  refine .loosen (Template.piece_format_append values (scope ++ f) arguments ?_
    (piece_function word opens) h)
  rw [String.toList_append, List.mem_append]
  exact not_or.mpr ⟨plain, no_percent word⟩

/-! ## Construction -/

include texts

theorem eye_tells (h : s.Phrased I) (named : s.node.category.isNamed) :
    s.Tells I (Phrase I false) (eye s) := by
  unfold eye
  dsimp only
  split
  · exact constant_tells _ (phrase_nat 1)
  case h_2 n eq =>
    split
    · exact keep nothing fun _ => h.verbatim named texts
    · split
      · exact typed nothing fun _ => .loosen (q := ⟨[], .apart⟩)
          (Template.piece_format (Site.says_one texts eq) (n := 2) rfl)
      · exact typed nothing fun _ => .loosen (q := ⟨[], .apart⟩)
          (Template.piece_format (Site.says_one texts eq) (n := 2) rfl)
  case h_3 n m eq =>
    split
    · exact keep nothing fun _ => h.verbatim named texts
    · exact typed nothing fun _ => .loosen (q := ⟨[], .apart⟩)
        (Template.piece_format (Site.says_two texts eq) (n := 2) rfl)
  · exact h.refuse named texts

theorem randomArray_tells (shape : Shape) : s.Tells I (Phrase I false) (randomArray shape s) := by
  refine typed nothing fun _ => Site.phrase_call texts ?_
  exact ((opening I "arma::randu<" (q := ⟨[], .apart⟩) rfl).say
    (phrase_name (word_typeName _))).put ">(" rfl

theorem rand_tells (h : s.Phrased I) (named : s.node.category.isNamed) :
    s.Tells I (Phrase I false) (rand s) := by
  unfold rand
  split
  · exact constant_tells _ (phrase_fixed I "arma::randu()" rfl)
  · exact randomArray_tells texts _
  · exact randomArray_tells texts _
  · exact randomArray_tells texts _
  · exact h.refuse named texts

/-! ### Zeros and ones -/

omit texts in
theorem piece_dimensionsOf {dims : String} (phrase : Phrase I false dims) (shape : Shape)
    {c : Char} {closers : List Char} : Piece I false ⟨c :: closers, .apart⟩
      (dimensionsOf dims shape) ⟨c :: closers, .apart⟩ := by
  have here : Piece I false ⟨c :: closers, .apart⟩ dims ⟨c :: closers, .unknown⟩ :=
    phrase.within nofun
  have one := here.put "(0)" (r := ⟨c :: closers, .apart⟩) rfl
  have first := here.put "(0), " (r := ⟨c :: closers, .apart⟩) rfl
  have two := (first.append here).put "(1)" (r := ⟨c :: closers, .apart⟩) rfl
  have second := (first.append here).put "(1), " (r := ⟨c :: closers, .apart⟩) rfl
  have three := (second.append here).put "(2)" (r := ⟨c :: closers, .apart⟩) rfl
  cases shape with
  | colvec | rowvec => exact one
  | cube => exact three
  | unknown | scalar | matrix => exact two

theorem filledByVector_tells (h : s.Phrased I)
    (rendered : ∀ o ∈ s.operands, Phrase I false o.node.text) {constructor : String}
    (opens : Piece I false ⟨[], .apart⟩ constructor ⟨[], .apart⟩) (d : Datatype) {o : Operand}
    (mem : o ∈ s.operands) :
    s.Tells I (Phrase I false) (filledByVector constructor d o s) := by
  have whole : ∀ {dims : String}, Phrase I false dims →
      Phrase I false (constructor ++ "(" ++ dimensionsOf dims d.shape ++ ")") := fun phrase =>
    (((opens.put "(" (r := ⟨[')'], .apart⟩) rfl).append (piece_dimensionsOf phrase d.shape)).put ")"
      (r := ⟨[], .apart⟩) rfl).loosen
  unfold filledByVector
  cases o.node.category == .var with
  | true => exact typed nothing fun _ => whole (texts o mem)
  | false =>
    exact typed (List.forall_mem_singleton.mpr (rendered o mem)) fun _ => whole (h.temporary _ _)

theorem filledByNumbers_tells {constructor : String} (plain : '%' ∉ constructor.toList)
    (opens : Piece I false ⟨[], .apart⟩ constructor ⟨[], .apart⟩) (d : Datatype) :
    s.Tells I (Phrase I false) (filledByNumbers constructor d s) := by
  have whole : s.Tells I (Phrase I false) (s.typed d (.join (constructor ++ "(") ", " ")")) :=
    typed nothing fun _ => Site.phrase_call texts (opens.put "(" rfl)
  unfold filledByNumbers
  dsimp only
  split
  case h_1 rows columns eq =>
    split
    · exact whole
    · split
      · exact typed nothing fun _ => .loosen (q := ⟨[], .apart⟩) (Template.piece_format_append
          (Site.says_two texts eq) constructor "(%(1)s)" plain opens (n := 1) rfl)
      · split
        · exact typed nothing fun _ => .loosen (q := ⟨[], .apart⟩) (Template.piece_format_append
            (Site.says_two texts eq) constructor "(%(0)s)" plain opens (n := 1) rfl)
        · exact whole
  · exact whole

theorem filled_tells (h : s.Phrased I) (rendered : ∀ o ∈ s.operands, Phrase I false o.node.text)
    (named : s.node.category.isNamed) : s.Tells I (Phrase I false) (filled s) := by
  have word := h.name named
  unfold filled
  split
  · refine typed nothing fun _ => ?_
    split
    · exact phrase_nat 1
    · exact phrase_nat 0
  case h_2 first rest eq =>
    dsimp only
    generalize (⟨fillShape s, fillClass s⟩ : Datatype) = d
    have opens : Piece I false ⟨[], .apart⟩ ("arma::" ++ s.name ++ "<" ++ d.typeName ++ ">")
        ⟨[], .apart⟩ :=
      (((piece_function word rfl).put "<" (r := ⟨[], .apart⟩) rfl).say
        (phrase_name (word_typeName d))).put ">" rfl
    have plain : '%' ∉ ("arma::" ++ s.name ++ "<" ++ d.typeName ++ ">").toList := by
      simp [no_percent word, no_percent (word_typeName d)]
    split
    · exact h.refuse named texts
    · split
      · exact filledByVector_tells texts h rendered opens d (by simp [eq])
      · exact filledByNumbers_tells texts plain opens d

/-! ### Others -/

theorem linspace_tells : s.Tells I (Phrase I false) (linspace s) :=
  typed nothing fun _ => Site.phrase_call texts (opening I "arma::linspace<rowvec>(" rfl)

theorem diagonal_tells (h : s.Phrased I) (named : s.node.category.isNamed) {o : Operand}
    {os : List Operand} (eq : s.operands = o :: os) :
    s.Tells I (Phrase I false) (diagonal o s) := by
  unfold diagonal
  split
  · exact keep nothing fun _ => h.verbatim named texts
  · split
    · exact withTyping nothing fun _ => Template.piece_format (Site.says_one texts eq) (n := 1) rfl
    · exact typed nothing fun _ => Site.phrase_call texts (opening I "arma::diagmat(" rfl)
    · exact typed nothing fun _ => Site.phrase_call texts (opening I "arma::diagmat(" rfl)
    · exact typed nothing fun _ => Site.phrase_call texts (opening I "arma::diagvec(" rfl)
    · exact h.refuse named texts

theorem diag_tells (h : s.Phrased I) (named : s.node.category.isNamed) :
    s.Tells I (Phrase I false) (diag s) := by
  unfold diag
  split
  · exact diagonal_tells texts h named ‹_›
  · exact diagonal_tells texts h named ‹_›
  · exact h.refuse named texts

theorem hankel_tells : s.Tells I (Phrase I false) (hankel s) :=
  typed use fun used => Site.phrase_call texts
    (piece_helper (used .hankel List.mem_cons_self) nofun rfl)

/-! ## Elementwise -/

theorem ofOne_tells (h : s.Phrased I) (named : s.node.category.isNamed) {rule : Operand → Rule}
    (one : ∀ {o}, s.operands = [o] → s.Tells I (Phrase I false) (rule o s)) :
    s.Tells I (Phrase I false) (ofOne rule s) := by
  unfold ofOne
  split
  · exact one ‹_›
  · exact h.refuse named texts

theorem phrase_applied {o : Operand} {os : List Operand} (eq : s.operands = o :: os)
    (shape : Shape) {function : String} (word : ∀ c ∈ function.toList, Token.isWordRest c) :
    Phrase I false ((applied shape function).render node s.texts) := by
  unfold applied
  rcases library_eq shape with library | library <;> rw [library] <;>
    exact phrase_pattern (Site.says_one texts eq) (n := 1) word rfl (by decide) rfl

theorem abs_tells (h : s.Phrased I) (named : s.node.category.isNamed) :
    s.Tells I (Phrase I false) (abs s) := by
  refine ofOne_tells texts h named fun eq => ?_
  dsimp only
  split
  · exact withTyping nothing fun _ => h.verbatim named texts
  · exact withTyping nothing fun _ => phrase_applied texts eq _ (List.all_eq_true.mp rfl)

theorem land_tells : s.Tells I (Phrase I false) (land s) := by
  refine typed nothing fun _ => ?_
  have inner : Piece I false ⟨[')'], .apart⟩ (Text.joined "*" s.texts) ⟨[')'], .unknown⟩ :=
    piece_joined rfl fun t mem => (Site.phrases_texts texts t mem).within nofun
  exact (((opening I "(" rfl).append inner).put ")" (r := ⟨[], .apart⟩) rfl).loosen

theorem lor_tells : s.Tells I (Phrase I false) (lor s) := by
  refine typed nothing fun _ => ?_
  have squares : ∀ t ∈ s.texts.map (fun t => t ++ "*" ++ t), Phrase I false t := by
    refine List.forall_mem_map.mpr fun t mem => ?_
    have phrase := Site.phrases_texts texts t mem
    exact phrase_both phrase phrase rfl
  have inner : Piece I false ⟨[')'], .apart⟩
      (Text.joined "+" (s.texts.map fun t => t ++ "*" ++ t)) ⟨[')'], .unknown⟩ :=
    piece_joined rfl fun t mem => (squares t mem).within nofun
  exact (((opening I "(" rfl).append inner).put ")" (r := ⟨[], .apart⟩) rfl).loosen

theorem lnot_tells (h : s.Phrased I) (named : s.node.category.isNamed) :
    s.Tells I (Phrase I false) (lnot s) :=
  ofOne_tells texts h named fun eq => negation_tells texts eq _

theorem transpose_tells (h : s.Phrased I) (named : s.node.category.isNamed) :
    s.Tells I (Phrase I false) (transpose s) :=
  ofOne_tells texts h named fun eq => transposed_tells texts eq _

theorem ctranspose_tells (h : s.Phrased I) (named : s.node.category.isNamed) :
    s.Tells I (Phrase I false) (ctranspose s) :=
  ofOne_tells texts h named fun eq => conjugated_tells texts eq _

theorem flipud_tells (h : s.Phrased I) (named : s.node.category.isNamed) :
    s.Tells I (Phrase I false) (flipud s) :=
  ofOne_tells texts h named fun eq => withTyping nothing fun _ => .loosen (q := ⟨[], .apart⟩)
    (Template.piece_format (Site.says_one texts eq) (n := 1) rfl)

omit texts in
theorem mathFor_tells (shape : Shape) : ∀ e ∈ mathFor shape, e.Tells I := by
  unfold mathFor
  split
  · exact use
  · exact nothing

theorem rounded_tells (h : s.Phrased I) (named : s.node.category.isNamed) {o : Operand}
    {os : List Operand} (eq : s.operands = o :: os) {places : Option Operand}
    (two : places.isSome → ∃ p ps, os = p :: ps) :
    s.Tells I (Phrase I false) (rounded o places s) := by
  unfold rounded
  dsimp only
  split
  · exact withTyping nothing fun _ => h.verbatim named texts
  · split
    · exact withTyping nothing fun _ => Template.piece_format (Site.says_one texts eq) (n := 1) rfl
    · split
      · exact withTyping (mathFor_tells _) fun _ =>
          phrase_applied texts eq _ (List.all_eq_true.mp rfl)
      · cases places with
        | none => exact absurd rfl ‹_›
        | some p =>
          obtain ⟨p, ps, rfl⟩ := two rfl
          refine withTyping (mathFor_tells _) fun _ => .loosen (q := ⟨[], .apart⟩) ?_
          unfold roundedToPlaces
          rcases library_eq o.shape with library | library <;> rw [library] <;>
            exact Template.piece_format (Site.says_two texts eq) (n := 3) rfl

theorem round_tells (h : s.Phrased I) (named : s.node.category.isNamed) :
    s.Tells I (Phrase I false) (round s) := by
  unfold round
  split
  case h_1 x eq => exact rounded_tells texts h named eq nofun
  case h_2 x places eq => exact rounded_tells texts h named eq fun _ => ⟨places, [], rfl⟩
  · exact h.refuse named texts

theorem floor_tells (h : s.Phrased I) (named : s.node.category.isNamed) :
    s.Tells I (Phrase I false) (floor s) := by
  refine ofOne_tells texts h named fun eq => ?_
  dsimp only
  split
  · exact withTyping nothing fun _ => h.verbatim named texts
  · exact withTyping (mathFor_tells _) fun _ => phrase_applied texts eq _ (List.all_eq_true.mp rfl)

theorem part_tells (h : s.Phrased I) (named : s.node.category.isNamed) :
    s.Tells I (Phrase I false) (part s) :=
  ofOne_tells texts h named fun eq => withTyping nothing fun _ =>
    phrase_pattern (Site.says_one texts eq) (n := 1) (h.name named) rfl (by decide) rfl

theorem conj_tells (h : s.Phrased I) (named : s.node.category.isNamed) :
    s.Tells I (Phrase I false) (conj s) :=
  ofOne_tells texts h named fun eq => withTyping nothing fun _ => .loosen (q := ⟨[], .apart⟩)
    (Template.piece_format (Site.says_one texts eq) (n := 1) rfl)

/-! ## Reductions -/

theorem phrase_reduced {o : Operand} {os : List Operand} (eq : s.operands = o :: os)
    {function : String} (word : ∀ c ∈ function.toList, Token.isWordRest c) :
    Phrase I false ((reduced function).render node s.texts) :=
  phrase_pattern (Site.says_one texts eq) (n := 1) word rfl (by decide) rfl

omit texts in
theorem reducedAlong_eq (function axis : String) : reducedAlong function axis
    = .format ("arma::" ++ function ++ ("(%(0)s, " ++ axis ++ ")")) := by
  simp only [reducedAlong, String.append_assoc]

omit texts in
/-- A reduction along an axis, which is a pattern itself. -/
theorem phrase_reducedAlong {keys : List (List Char)}
    (values : ∀ key ∈ keys, Template.Says I node s.texts key)
    {function axis : String} (word : ∀ c ∈ function.toList, Token.isWordRest c) {n : Nat}
    {before : Before} (h : Template.read keys n ⟨[], .unknown⟩ ("(%(0)s, " ++ axis ++ ")").toList
      = some ⟨[], before⟩) :
    Phrase I false ((reducedAlong function axis).render node s.texts) := by
  rw [reducedAlong_eq]
  exact phrase_pattern values word rfl (by decide) h

theorem truthOfMatrix_tells (h : s.Phrased I) (named : s.node.category.isNamed) {o : Operand}
    {os : List Operand} (eq : s.operands = o :: os) :
    s.Tells I (Phrase I false) (truthOfMatrix o s) := by
  have word := h.name named
  unfold truthOfMatrix
  dsimp only
  split
  case h_1 x axis pair =>
    split
    · exact typed nothing fun _ =>
        phrase_reducedAlong (Site.says_one texts eq) (n := 1) word rfl
    · exact typed nothing fun _ =>
        phrase_reducedAlong (Site.says_one texts eq) (n := 1) word rfl
    · exact withTyping report fun _ =>
        phrase_reducedAlong (Site.says_two texts pair) (n := 2) word rfl
  case h_2 => exact withTyping report fun _ => phrase_reduced texts eq word

theorem truthReduction_tells (h : s.Phrased I) (named : s.node.category.isNamed) :
    s.Tells I (Phrase I false) (truthReduction s) := by
  have word := h.name named
  unfold truthReduction
  split
  · exact keep nothing fun _ => h.verbatim named texts
  case h_2 x rest eq =>
    dsimp only
    split
    · exact keep nothing fun _ => h.verbatim named texts
    · split
      · exact withTyping nothing fun _ =>
          Template.piece_format (Site.says_one texts eq) (n := 1) rfl
      · exact typed nothing fun _ => phrase_reduced texts eq word
      · exact typed nothing fun _ => phrase_reduced texts eq word
      · exact truthOfMatrix_tells texts h named eq
      · exact typed nothing fun _ => Site.phrase_call texts ((piece_function word rfl).put "(" rfl)
      · exact withTyping nothing fun _ => h.verbatim named texts

theorem extremumOfArrays_tells (h : s.Phrased I) (named : s.node.category.isNamed) {o : Operand}
    {os : List Operand} (eq : s.operands = o :: os) :
    s.Tells I (Phrase I false) (extremumOfArrays o s) := by
  have word := h.name named
  unfold extremumOfArrays
  dsimp only
  split
  · exact typed nothing fun _ => phrase_reduced texts eq word
  case h_2 x y pair =>
    exact typed nothing fun _ =>
      phrase_reducedAlong (Site.says_two texts pair) (n := 2) word rfl
  case h_3 x y axis triple =>
    split
    · exact typed nothing fun _ =>
        phrase_reducedAlong (Site.says_one texts eq) (n := 1) word rfl
    · exact typed nothing fun _ =>
        phrase_reducedAlong (Site.says_one texts eq) (n := 1) word rfl
    · exact withTyping report fun _ =>
        phrase_reducedAlong (Site.says_three texts triple) (n := 2) word rfl
  · exact typed report fun _ => h.verbatim named texts

theorem extremum_tells (h : s.Phrased I) (named : s.node.category.isNamed) :
    s.Tells I (Phrase I false) (extremum s) := by
  unfold extremum
  split
  · exact keep nothing fun _ => h.verbatim named texts
  case h_2 x rest eq =>
    split
    · exact keep nothing fun _ => h.verbatim named texts
    · split
      · exact typed nothing fun _ =>
          Site.phrase_call texts ((piece_function (h.name named) rfl).put "(" rfl)
      · exact extremumOfArrays_tells texts h named eq

/-! ### Sums -/

theorem sumOf_tells (h : s.Phrased I) (named : s.node.category.isNamed) {o : Operand}
    {os : List Operand} (eq : s.operands = o :: os) {axis : Option Operand}
    (two : axis.isSome → ∃ a as, os = a :: as) :
    s.Tells I (Phrase I false) (sumOf o axis s) := by
  unfold sumOf
  split
  · exact keep report fun _ => h.verbatim named texts
  · dsimp only
    refine typed nothing fun _ => ?_
    split
    · exact phrase_reduced texts eq (List.all_eq_true.mp rfl)
    case h_2 a k _ =>
      have first : Phrase I false o.text := texts o (by simp [eq])
      rw [Site.texts, eq, List.map_cons, render_sumAlong (plain_of_int _)]
      have opened := ((opening I "arma::sum(" (q := ⟨[')'], .apart⟩) rfl).say first).put ", "
        (r := ⟨[')'], .apart⟩) rfl
      exact ((opened.say (phrase_int _)).put ")" (r := ⟨[], .apart⟩) rfl).loosen
    case h_3 a _ =>
      obtain ⟨a, as, rfl⟩ := two rfl
      exact phrase_reducedAlong (Site.says_two texts eq) (n := 2)
        (List.all_eq_true.mp rfl) rfl

theorem sum_tells (h : s.Phrased I) (named : s.node.category.isNamed) :
    s.Tells I (Phrase I false) (sum s) := by
  unfold sum
  split
  case h_1 x eq => exact sumOf_tells texts h named eq nofun
  case h_2 x axis eq => exact sumOf_tells texts h named eq fun _ => ⟨axis, [], rfl⟩
  · exact h.refuse named texts

/-! ## Signals -/

omit texts in
theorem realInverse_tells (x : Operand) : ∀ e ∈ realInverse x s, e.Tells I := by
  unfold realInverse
  split
  · exact report
  · exact nothing

omit texts in
/-- A helper with a type in angle brackets. -/
theorem phrase_typedHelper {keys : List (List Char)} {ts : List String}
    (values : ∀ key ∈ keys, Template.Says I node ts key) {i : Include} (mem : i ∈ I.used)
    (scope : i ≠ .math) {function arguments : String} (eq : function = i.helper ++ "<")
    (plain : '%' ∉ function.toList) (d : Datatype) {n : Nat} {before : Before}
    (h : Template.read keys n ⟨[], .unknown⟩ arguments.toList = some ⟨[], before⟩) :
    Phrase I false ((Template.format (function ++ d.typeName ++ arguments)).render node ts) := by
  have opened : Piece I false ⟨[], .apart⟩ function ⟨[], .apart⟩ :=
    piece_helper_typed mem scope eq
  refine .loosen (Template.piece_format_append values (function ++ d.typeName) arguments ?_
    (opened.say (phrase_name (word_typeName d))) h)
  rw [String.toList_append, List.mem_append]
  exact not_or.mpr ⟨plain, no_percent (word_typeName d)⟩

theorem transformAlong_tells (h : s.Phrased I) (named : s.node.category.isNamed)
    (name : s.name = "fft" ∨ s.name = "ifft") {x length axis : Operand} {os : List Operand}
    (eq : s.operands = x :: length :: axis :: os) :
    (∀ e ∈ (transformAlong x length s).2, e.Tells I)
      ∧ ((∀ i, Effect.use i ∈ (transformAlong x length s).2 → i ∈ I.used) →
        Phrase I false ((transformAlong x length s).1.render node s.texts)) := by
  have word := h.name named
  have keys : ∀ key ∈ [['0'], ['1'], ['2']], Template.Says I node s.texts key :=
    Site.says_three texts eq
  unfold transformAlong
  dsimp only
  split
  · refine ⟨nothing, fun _ => ?_⟩
    dsimp only
    split
    · exact phrase_pattern keys (n := 1) word rfl (by decide) rfl
    · exact phrase_pattern keys (n := 2) word rfl (by decide) rfl
  · split
    · refine ⟨use, fun used => ?_⟩
      rcases name with name | name <;> rw [name] at used ⊢
      · exact phrase_typedHelper keys (i := .fft) (used _ (List.mem_singleton_self _)) nofun
          (by decide) (by decide) _ (n := 2) rfl
      · exact phrase_typedHelper keys (i := .ifft) (used _ (List.mem_singleton_self _)) nofun
          (by decide) (by decide) _ (n := 2) rfl
    · refine ⟨use, fun used => ?_⟩
      rcases name with name | name <;> rw [name] at used ⊢
      · exact phrase_typedHelper keys (i := .fftn) (used _ (List.mem_singleton_self _)) nofun
          (by decide) (by decide) _ (n := 3) rfl
      · exact phrase_typedHelper keys (i := .ifftn) (used _ (List.mem_singleton_self _)) nofun
          (by decide) (by decide) _ (n := 3) rfl

theorem transformCall_tells (h : s.Phrased I) (named : s.node.category.isNamed)
    (name : s.name = "fft" ∨ s.name = "ifft") {x : Operand} {os : List Operand}
    (eq : s.operands = x :: os) :
    (∀ e ∈ (transformCall x s).2, e.Tells I)
      ∧ ((∀ i, Effect.use i ∈ (transformCall x s).2 → i ∈ I.used) →
        Phrase I false ((transformCall x s).1.render node s.texts)) := by
  have word := h.name named
  unfold transformCall
  split
  · exact ⟨nothing, fun _ =>
      phrase_pattern (Site.says_one texts eq) (n := 1) word rfl (by decide) rfl⟩
  case h_2 y n pair =>
    exact ⟨nothing, fun _ =>
      phrase_pattern (Site.says_two texts pair) (n := 2) word rfl (by decide) rfl⟩
  case h_3 y n axis triple =>
    cases triple.symm.trans eq
    exact transformAlong_tells texts h named name triple
  · exact ⟨report, fun _ => Site.phrase_call texts ((piece_function word rfl).put "(" rfl)⟩

theorem fourier_tells (h : s.Phrased I) (named : s.node.category.isNamed)
    (name : s.name = "fft" ∨ s.name = "ifft") : s.Tells I (Phrase I false) (fourier s) := by
  unfold fourier
  split
  · exact h.refuse named texts
  case h_2 x rest eq =>
    split
    · exact keep nothing fun _ => h.verbatim named texts
    · have call : ∀ n : Node, (∀ e ∈ (transformCall x s).2, e.Tells I)
          ∧ ((∀ i, Effect.use i ∈ (transformCall x s).2 → i ∈ I.used) →
            Phrase I false ((transformCall x s).1.render n s.texts)) := fun _ =>
        transformCall_tells texts h named name eq
      exact typed (append (realInverse_tells x) (call s.node).1) fun used =>
        (call _).2 fun i mem => used i (List.mem_append_right _ mem)

theorem nextpow2_tells : s.Tells I (Phrase I false) (nextpow2 s) :=
  typed use fun used => Site.phrase_call texts
    (piece_helper (used .nextpow2 List.mem_cons_self) nofun rfl)

theorem interp1_tells : s.Tells I (Phrase I false) (interp1 s) := by
  have call : ∀ {n : Node}, Phrase I false
      ((Template.join "arma::interp1(" ", " ")").render n s.texts) :=
    Site.phrase_call texts (opening I "arma::interp1(" rfl)
  unfold interp1
  dsimp only
  split
  · split
    · exact typed nothing fun _ => call
    · exact keep nothing fun _ => call
  · exact keep nothing fun _ => call

/-! ## Sizes -/

omit texts in
theorem word_of_extents {e : String} (mem : e ∈ extents) : ∀ c ∈ e.toList, Token.isWordRest c := by
  simp only [extents, List.mem_cons, List.not_mem_nil, or_false] at mem
  rcases mem with rfl | rfl | rfl <;> exact List.all_eq_true.mp rfl

omit texts in
/-- A member of a text. -/
theorem phrase_member {a e : String} (phrase : Phrase I false a) (mem : e ∈ extents) :
    Phrase I false (a ++ "." ++ e) :=
  (Piece.put phrase "." (r := ⟨[], .apart⟩) rfl).say (phrase_name (word_of_extents mem))

omit texts in
theorem phrase_receiver {o : Operand} (phrase : Phrase I false o.text) :
    Phrase I false (receiver o) := by
  unfold receiver
  split
  · exact phrase
  · exact phrase_parens phrase

omit texts in
theorem phrase_extentList {a : String} (phrase : Phrase I false a) {members : List String}
    (known : ∀ e ∈ members, e ∈ extents) : Phrase I false (extentList a members) := by
  have inner : Phrase I true (Text.joined ", " (members.map fun e => a ++ "." ++ e)) := by
    refine piece_joined rfl fun t mem => ?_
    obtain ⟨e, there, rfl⟩ := List.mem_map.mp mem
    exact (phrase_member phrase (known e there)).weaken true
  exact phrase_braced inner

omit texts in
theorem sizeOfAxes_tells (h : s.Phrased I) {x : Operand} (phrase : Phrase I false x.text)
    {axes : Nat} (le : axes ≤ 3) : s.Tells I (Phrase I false) (sizeOfAxes x axes s) := by
  have list : Phrase I false (extentList (receiver x) (extents.take axes)) :=
    phrase_extentList (phrase_receiver phrase) fun _ => List.mem_of_mem_take
  unfold sizeOfAxes
  rw [extentsOf_eq le]
  show s.Tells I _ (if _ then _ else _)
  split
  · exact typed (List.forall_mem_singleton.mpr trivial) fun _ => list
  · split
    · exact typed nothing fun _ => (((opening I "urowvec(" (q := ⟨[')'], .apart⟩) rfl).say list).put ")"
        (r := ⟨[], .apart⟩) rfl).loosen
    · exact typed (List.forall_mem_singleton.mpr list) fun _ => h.temporary _ _

theorem sizeOf_tells (h : s.Phrased I) (named : s.node.category.isNamed) {x : Operand}
    (phrase : Phrase I false x.text) : s.Tells I (Phrase I false) (sizeOf x s) := by
  have count : Phrase I false (receiver x ++ ".n_elem") :=
    (Piece.put (phrase_receiver phrase) ".n_elem" (r := ⟨[], .word "mele_n".toList⟩) rfl).loosen
  unfold sizeOf
  split
  · exact typed nothing fun _ => count
  · exact typed nothing fun _ => count
  · exact sizeOfAxes_tells h phrase (by decide)
  · exact sizeOfAxes_tells h phrase (by decide)
  · exact keep nothing fun _ => h.verbatim named texts

theorem sizeAlong_tells (h : s.Phrased I) (named : s.node.category.isNamed) {x axis : Operand}
    (phrase : Phrase I false x.text) : s.Tells I (Phrase I false) (sizeAlong x axis s) := by
  refine typed nothing fun _ => ?_
  split
  case h_1 extent found =>
    obtain ⟨v, -, found⟩ := Option.bind_eq_some_iff.mp found
    exact phrase_member (phrase_receiver phrase) (mem_of_extentOfAxis? found)
  case h_2 => exact h.verbatim named texts

theorem size_tells (h : s.Phrased I) (named : s.node.category.isNamed) :
    s.Tells I (Phrase I false) (size s) := by
  unfold size
  split
  case h_1 x eq =>
    split
    · exact keep nothing fun _ => h.verbatim named texts
    · exact sizeOf_tells texts h named (texts x (by simp [eq]))
  case h_2 x axis eq =>
    split
    · exact keep nothing fun _ => h.verbatim named texts
    · exact sizeAlong_tells texts h named (texts x (by simp [eq]))
  case h_3 => exact h.refuse named texts

theorem length_tells (h : s.Phrased I) (named : s.node.category.isNamed) :
    s.Tells I (Phrase I false) (length s) := by
  unfold length
  split
  case h_1 x eq =>
    split
    · refine typed nothing fun _ => .loosen (q := ⟨[], .word "mele_n".toList⟩) ?_
      exact Template.piece_format (Site.says_one texts eq) (n := 1) rfl
    · refine typed use fun used => .loosen (q := ⟨[], .apart⟩) ?_
      have helper : Piece I false ⟨[], .apart⟩ "m2cpp::length(" ⟨[')'], .apart⟩ :=
        piece_helper (used .length List.mem_cons_self) nofun rfl
      exact Template.piece_format_append (Site.says_one texts eq) (n := 1) "m2cpp::length("
        "%(0)s)" (by decide) helper rfl
  case h_2 => exact h.refuse named texts

/-! ### In assignments -/

theorem assignSize_tells (h : s.Phrased I) (redirect : s.node.redirect = some .size) :
    s.Tells I (Prints I) (assignSize s) := by
  obtain ⟨-, category, variable_⟩ := h.self.redirected _ redirect
  obtain ⟨d, v, _, _, eq, _, first, _, destination⟩ := two h.self category
  have word := word_of_mem h (o := d) (by simp [eq]) (isNamed_of_isDestination destination)
  have var : d.node.category = .var := by
    rw [eq] at variable_
    exact eq_of_beq variable_
  have value : Phrase I false v.text := texts v (by simp [eq])
  unfold assignSize
  rw [eq]
  refine checked_tells (List.forall_mem_singleton.mpr word) fun free => ?_
  obtain ⟨text, -⟩ := first.named var (free d (List.mem_singleton_self d))
  dsimp only
  rw [text]
  refine keep (binding_tells _ _) fun _ => ?_
  have axes : Phrase I false (if firstArgumentShape s v == some .cube then "3" else "2") := by
    split
    · exact phrase_nat 3
    · exact phrase_nat 2
  generalize d.node.name = x at word
  generalize (if firstArgumentShape s v == some .cube then "3" else "2") = n at axes
  have named : Phrase I false x := phrase_name word
  have filled : Phrase I true ("uword _" ++ x ++ " [] = " ++ v.text ++ " ;") := by
    have array := (opening I "uword _" (q := ⟨[], .word ['_']⟩) rfl).append (.name word)
    exact Phrase.weaken (((array.put " [] = " (r := ⟨[], .apart⟩) rfl).say value).put " ;"
      (r := ⟨[], .apart⟩) rfl).loosen true
  have wrapped : Phrase I true (x ++ " = urowvec(_" ++ x ++ ", " ++ n ++ ", false) ;") := by
    have array := (Piece.put named " = urowvec(_" (r := ⟨[')'], .word ['_']⟩) rfl).append
      (.name word)
    have owner := (array.put ", " (r := ⟨[')'], .apart⟩) rfl).say axes
    exact Phrase.weaken (owner.put ", false) ;" (r := ⟨[], .apart⟩) rfl).loosen true
  refine ⟨[_, _], ?_, List.forall_mem_cons.mpr ⟨⟨filled, append_ne_empty (by decide)⟩,
    List.forall_mem_singleton.mpr ⟨wrapped, append_ne_empty (by decide)⟩⟩⟩
  apply String.toList_injective
  simp [Text.joined, Template.render]

omit texts in
/-- What is read several times is a phrase, and so is what is hoisted for it. -/
theorem readable_tells (h : s.Phrased I) {id : NodeId} {d : Datatype}
    (phrase : Phrase I false (s.tree.node id).text) :
    (∀ e ∈ (readable s id d).2, e.Tells I) ∧ Phrase I false (readable s id d).1 := by
  unfold readable
  dsimp only
  split
  · exact ⟨nothing, phrase⟩
  · exact ⟨List.forall_mem_singleton.mpr phrase, h.temporary _ _⟩

omit texts in
theorem destinations_tells (ds : List Operand) (d : Datatype) :
    ∀ e ∈ ds.map (fun o => Effect.destination o.id d), e.Tells I :=
  List.forall_mem_map.mpr fun _ _ => trivial

omit texts in
/-- A failure that counts destinations. -/
theorem phrase_count {front : String} (opened : Phrase I false front) (n : Nat) :
    Phrase I true ("Unsupported construct: " ++ (front ++ " assigned to " ++ toString n
      ++ " destinations")) := by
  have message := (Piece.put opened " assigned to " (r := ⟨[], .apart⟩) rfl).say (phrase_nat n)
  have whole := message.put " destinations" (r := ⟨[], .word "snoitanitsed".toList⟩) rfl
  exact Phrase.weaken ((opening I "Unsupported construct: " (q := ⟨[], .apart⟩) rfl).say
    whole.loosen) true

theorem assignsSize_tells (h : s.Phrased I) (category : s.node.category = .assigns)
    (named : ∀ v ∈ s.operands.getLast?, v.node.category = .get) :
    s.Tells I (Prints I) (assignsSize s) := by
  obtain ⟨ds, v, _, _, eq, _, _, _, names, _⟩ := several h.self category
  have call : v.node.category = .get := named v (by simp [eq])
  have outputs : ∀ d ∈ ds, Phrase I false d.text := fun d mem => texts d (by simp [eq, mem])
  unfold assignsSize
  rw [eq, splitLast?_append]
  dsimp only
  split
  case h_1 => exact phrase_fixed I "Unsupported construct: size without arguments" rfl
  case h_2 argument rest arguments =>
    have there : v ∈ s.operands := by simp [eq]
    have phrase : Phrase I false (s.tree.node argument).text :=
      phrase_argument h there (by rw [call]; rfl) (by rw [call]; nofun) argument (by simp [arguments])
    split
    case isTrue => exact phrase_count (phrase_fixed I "size" rfl) _
    case isFalse count =>
      have le : ds.length ≤ 3 := by omega
      refine checked_tells (fun d mem => h.self.spelt.of_names (names d mem)) fun _ => ?_
      obtain ⟨quiet, source⟩ := readable_tells h (d := (s.tree.node argument).datatype) phrase
      rw [extentsOf_eq le]
      refine keep (append quiet (destinations_tells ds _)) fun _ => ⟨_, rfl, ?_⟩
      refine List.forall_mem_map.mpr fun (d, extent) mem => ?_
      obtain ⟨there, known⟩ := List.of_mem_zip mem
      have target := Piece.put (outputs d there) " = " (r := ⟨[], .apart⟩) rfl
      have owner := (target.say source).put "." (r := ⟨[], .apart⟩) rfl
      have member := owner.say (phrase_name (word_of_extents (List.mem_of_mem_take known)))
      exact ⟨Phrase.weaken (member.put " ;" (r := ⟨[], .apart⟩) rfl).loosen true,
        append_ne_empty (by decide)⟩

/-! ### Extrema with their index -/

omit texts in
theorem extremumWithIndex_tells (h : s.Phrased I) {name : String}
    (word : ∀ c ∈ name.toList, Token.isWordRest c) {v i a : Operand}
    (value : Phrase I false v.text) (index : Phrase I false i.text)
    (argument : Phrase I false (s.tree.node a.id).text) :
    s.Tells I (Prints I) (extremumWithIndex name v i a s) := by
  unfold extremumWithIndex
  dsimp only
  obtain ⟨quiet, source⟩ := readable_tells h argument (d := retyped
    [(v.id, Datatype.scalar a.cls), (i.id, Datatype.scalar .uword)] a.id a.datatype)
  refine keep (append (List.forall_mem_map.mpr fun _ _ => trivial) quiet) fun _ => ?_
  have target := Piece.put value " = " (r := ⟨[], .apart⟩) rfl
  have method := ((target.say source).put "." (r := ⟨[], .apart⟩) rfl).say (phrase_name word)
  exact prints_ends ((method.put "(" (r := ⟨[')'], .apart⟩) rfl).say index) ") ;"
    (q := ⟨[], .apart⟩) rfl rfl (by decide)

theorem assignsExtremum_tells (h : s.Phrased I) (category : s.node.category = .assigns)
    (named : ∀ v ∈ s.operands.getLast?, v.node.category = .get) :
    s.Tells I (Prints I) (assignsExtremum s) := by
  obtain ⟨ds, v, ds', v', eq, eq', alike, last, names, takes⟩ := several h.self category
  clear eq' alike last takes
  have call : v.node.category = .get := named v (by simp [eq])
  have there : v ∈ s.operands := by simp [eq]
  have word : ∀ c ∈ v.node.name.toList, Token.isWordRest c :=
    word_of_mem h there (by rw [call]; rfl)
  have outputs : ∀ d ∈ ds, Phrase I false d.text := fun d mem => texts d (by simp [eq, mem])
  have failing : ∀ {rest : String}, (∃ q, Place.read false ⟨[], .unknown⟩ rest.toList = some q
      ∧ q.closers = []) → s.Tells I (Prints I) (.error (.unsupported (v.node.name ++ rest))) := by
    rintro rest ⟨⟨closers, before⟩, read, rfl⟩
    have named : Phrase I false v.node.name := phrase_name word
    have message := Piece.put named rest read
    exact Phrase.weaken ((opening I "Unsupported construct: " (q := ⟨[], .apart⟩) rfl).say
      message.loosen) true
  unfold assignsExtremum
  rw [eq, splitLast?_append]
  dsimp only
  split
  case h_1 _ value index =>
    refine checked_tells (fun d mem => h.self.spelt.of_names (names d mem)) fun _ => ?_
    have hv := outputs value (by simp)
    have hi := outputs index (by simp)
    split
    · exact failing ⟨_, rfl, rfl⟩
    case h_2 id arguments =>
      have phrase : Phrase I false (s.tree.node id).text :=
        phrase_argument h there (by rw [call]; rfl) (by rw [call]; nofun) id (by simp [arguments])
      split
      · exact extremumWithIndex_tells h word hv hi phrase
      · refine keep nothing fun _ => ?_
        have first := (opening I "[" (q := ⟨[']'], .apart⟩) rfl).say hv
        have both := ((first.put ", " (r := ⟨[']'], .apart⟩) rfl).say hi).put "] = "
          (r := ⟨[], .apart⟩) rfl
        exact prints_ends (both.say (texts v there)) " ;" (q := ⟨[], .apart⟩) rfl rfl (by decide)
    · exact failing ⟨_, rfl, rfl⟩
  case h_2 => exact phrase_count (phrase_name word) _

end

end BuiltinRule

end MatrixScript
