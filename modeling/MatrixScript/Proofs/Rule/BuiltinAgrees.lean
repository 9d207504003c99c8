/-
# `Proofs.Rule.BuiltinAgrees` — the rules of built-ins agree

One lemma for each rule again.  Some of these rules write the name of the
built-in into a pattern, so they are about the names that lead to them.  With the
rules of categories this gives `select_agrees`: at sites that are alike, whatever
rule the node gets answers alike.
-/
import MatrixScript.Proofs.Rule.Agrees

namespace MatrixScript

namespace BuiltinRule

open Rule

variable {L : Likeness} {quieter : Prop} {s s' : Site}

/-- The text that prints the time holds a string. -/
theorem elapsed_eq : "cout << \"Elapsed time = \" << _timer.toc() << endl"
    = "cout << " ++ Text.quoted "Elapsed time = ".toList ++ " << _timer.toc() << endl" := by
  decide

section

variable (h : s.Alike L quieter s')
include h

/-! ## Constants, clock, commands -/

omit h in
theorem constant_agrees (c : StorageClass) {text : String} (shows : L.Shows text text) :
    Agrees L quieter s s' L.Shows (constant c text s) (constant c text s') :=
  .typed _ .nil fun _ => shows

theorem tic_agrees : Agrees L quieter s s' L.Shows (tic s) (tic s') :=
  .keep h (.cons .tic .nil) fun _ => (L.opening "_timer.tic()" rfl).shows

theorem toc_agrees : Agrees L quieter s s' L.Shows (toc s) (toc s') := by
  have effects : Effect.AllAlike L quieter s
      (if s.state.clock.started then [Effect.toc]
        else [.toc, .report s.id .likelyMisuse "toc without a preceding tic"])
      (if s'.state.clock.started then [Effect.toc]
        else [.toc, .report s'.id .likelyMisuse "toc without a preceding tic"]) := by
    rw [h.id]
    rcases h.clock with same | ⟨quiet, silent⟩
    · rw [same]
      exact .ite (.cons .toc .nil) (.cons .toc .report)
    · rw [silent]
      cases s'.state.clock.started with
      | true => exact .cons .toc (.drop quiet .nil)
      | false => exact .cons .toc .report
  unfold toc
  rw [h.parentCategory?]
  dsimp only
  refine .ite (fun _ => .keep h effects fun _ => ?_) fun _ => .typed _ effects fun _ => ?_
  · have quoted := (L.opening "cout << " rfl).append (L.string L.elapsed)
    have text := quoted.putWord " << _timer.toc() << endl" rfl
    rw [← elapsed_eq] at text
    exact text
  · exact (L.opening "_timer.toc()" rfl).shows

theorem housekeeping_agrees (named : s.node.category.isNamed) :
    Agrees L quieter s s' L.Shows (housekeeping s) (housekeeping s') := by
  have comment := (L.opening "// " rfl).append (Likeness.Shows.name (h.plain named))
  unfold housekeeping
  rw [h.category, h.name]
  exact .ite (fun _ => .keep h .nil fun _ => comment) fun _ =>
    .keep h .nil fun _ => h.shows_call (comment.put "(" rfl)

/-! ## Construction -/

theorem eye_agrees (named : s.node.category.isNamed) :
    Agrees L quieter s s' L.Shows (eye s) (eye s') := by
  have operands := h.operands
  unfold eye
  generalize eq : s.operands = os at operands ⊢
  generalize eq' : s'.operands = os' at operands ⊢
  rcases operands with _ | ⟨first, _ | ⟨second, _ | _⟩⟩
  · exact constant_agrees _ (.word L "1" rfl)
  · dsimp only
    rw [first.numeric, first.shape]
    refine .ite (fun _ => .keep h .nil fun _ => h.shows_verbatim named) fun _ => ?_
    refine .ite (fun _ => .typed _ .nil fun _ => L.weaken ?_) fun _ =>
      .typed _ .nil fun _ => L.weaken ?_
    · exact Template.like_format (Site.Alike.keys_one eq eq' first) (k := 2) rfl
    · exact Template.like_format (Site.Alike.keys_one eq eq' first) (k := 2) rfl
  · dsimp only
    rw [first.numeric]
    refine .ite (fun _ => .keep h .nil fun _ => h.shows_verbatim named) fun _ => ?_
    refine .typed _ .nil fun _ => L.weaken ?_
    exact Template.like_format (Site.Alike.keys_two eq eq' first second) (k := 2) rfl
  · exact h.refuse named

theorem randomArray_agrees (shape : Shape) :
    Agrees L quieter s s' L.Shows (randomArray shape s) (randomArray shape s') := by
  refine .typed _ .nil fun _ => h.shows_call ?_
  exact ((L.opening "arma::randu<" rfl).append (Likeness.shows_typeName _)).put ">(" rfl

theorem rand_agrees (named : s.node.category.isNamed) :
    Agrees L quieter s s' L.Shows (rand s) (rand s') := by
  have operands := h.operands
  unfold rand
  generalize s.operands = os at operands
  generalize s'.operands = os' at operands
  rcases operands with _ | ⟨_, _ | ⟨_, _ | ⟨_, _ | _⟩⟩⟩
  · exact constant_agrees _ (L.opening "arma::randu()" rfl).shows
  · exact randomArray_agrees h _
  · exact randomArray_agrees h _
  · exact randomArray_agrees h _
  · exact h.refuse named

/-! ### Zeros and ones -/

theorem assignmentHint?_eq (value : s.node.category.isDestination = false) :
    assignmentHint? s' = assignmentHint? s := by
  obtain ⟨none, none'⟩ := h.suggest value
  have through : ∀ t : Site, t.node.suggest = Option.none → assignmentHint? t
      = (t.parent?.map Node.bare).bind fun p =>
        if p.category == .assign && t.tree.position? t.id == some 1 then
          p.children.head?.bind fun d =>
            if (t.tree.node d).category == .var then t.lookup (t.tree.node d).name else Option.none
        else Option.none := by
    intro t silent
    unfold assignmentHint?
    rw [silent]
    cases t.parent? with
    | none => rfl
    | some p =>
      show (if p.category == .assign && _ then _ else _)
        = if p.category == .assign && _ then _ else _
      refine if_congr Iff.rfl ?_ rfl
      show _ = p.children.head?.bind _
      cases p.children <;> rfl
  have category : ∀ i, (s'.tree.node i).category = (s.tree.node i).category :=
    congrFun (Tree.category_of_bare h.bare)
  rw [through s' none', through s none, h.parent?, h.id, Tree.position?_of_bare h.bare]
  simp only [category, Tree.name_of_bare h.bare, h.lookup]

theorem knownHint?_eq (value : s.node.category.isDestination = false) :
    knownHint? s' = knownHint? s := by rw [knownHint?, assignmentHint?_eq h value, knownHint?]

theorem fillClass_eq (value : s.node.category.isDestination = false) :
    fillClass s' = fillClass s := by
  have subscript : s'.group?.any (·.category.isSubscript) = s.group?.any (·.category.isSubscript) := by
    have through : ∀ t : Site, t.group?.any (·.category.isSubscript)
        = (t.group?.map Node.bare).any (·.category.isSubscript) := by
      intro t
      cases t.group? <;> rfl
    rw [through, h.group?, ← through]
  rw [fillClass, subscript, knownHint?_eq h value, fillClass]

theorem isDimensionVector_eq : isDimensionVector s' = isDimensionVector s := by
  have operands := h.operands
  unfold isDimensionVector
  generalize s.operands = os at operands
  generalize s'.operands = os' at operands
  rcases operands with _ | ⟨first, _ | _⟩
  · rfl
  · dsimp only
    rw [first.numeric, first.shape]
  · rfl

theorem fillShape_eq (value : s.node.category.isDestination = false) :
    fillShape s' = fillShape s := by
  have arguments : ∀ hint, fillShapeOfArguments hint s' = fillShapeOfArguments hint s := by
    intro hint
    have operands := h.operands
    unfold fillShapeOfArguments
    rw [isDimensionVector_eq h]
    generalize s.operands = os at operands
    generalize s'.operands = os' at operands
    rcases operands with _ | ⟨first, _ | ⟨second, _ | _⟩⟩
    · rfl
    · rfl
    · dsimp only
      rw [first.isInt, second.isInt]
    · rfl
  unfold fillShape
  simp only [knownHint?_eq h value, arguments]

omit h in
theorem shows_dimensionsOf {a a' : String} (shows : L.Shows a a') (shape : Shape) :
    L.Shows (dimensionsOf a shape) (dimensionsOf a' shape) := by
  have one := shows.put "(0)" rfl
  have two := ((shows.put "(0), " rfl).append shows).put "(1)" rfl
  have three := ((((shows.put "(0), " rfl).append shows).put "(1), " rfl).append shows).put "(2)" rfl
  cases shape with
  | colvec | rowvec => exact one.shows
  | cube => exact three.shows
  | unknown | scalar | matrix => exact two.shows

theorem filledByVector_agrees {constructor : String}
    (opens : L.like .free constructor constructor .free) (d : Datatype) {o o' : Operand}
    (mem : o ∈ s.operands) (alike : o.Alike L o') :
    Agrees L quieter s s' L.Shows (filledByVector constructor d o s)
      (filledByVector constructor d o' s') := by
  have reaches : s.tree.Reaches s.id o.id := by
    refine .inr (.inl ?_)
    rw [← h.ids]
    exact List.mem_map_of_mem mem
  unfold filledByVector
  rw [alike.category, alike.id, alike.datatype]
  have shown : ∀ {a a' : String}, L.Shows a a' →
      L.Shows (constructor ++ "(" ++ dimensionsOf a d.shape ++ ")")
        (constructor ++ "(" ++ dimensionsOf a' d.shape ++ ")") := fun shows =>
    (((opens.put "(" rfl).append (shows_dimensionsOf shows d.shape)).put ")" rfl).shows
  cases o.node.category == .var with
  | true => exact .typed d .nil fun _ => shown alike.text
  | false =>
    refine .typed d (.cons (.hoist reaches alike.rendered) .nil) fun names => shown ?_
    exact names _ _ rfl

omit h in
theorem typeName_plain (d : Datatype) : '%' ∉ d.typeName.toList := by
  obtain ⟨s, c⟩ := d
  cases s <;> cases c <;> decide

theorem filledByNumbers_agrees {constructor : String} (plain : '%' ∉ constructor.toList)
    (opens : L.like .free constructor constructor .free) (d : Datatype) :
    Agrees L quieter s s' L.Shows (filledByNumbers constructor d s)
      (filledByNumbers constructor d s') := by
  have operands := h.operands
  have whole : Agrees L quieter s s' L.Shows
      (s.typed d (.join (constructor ++ "(") ", " ")"))
      (s'.typed d (.join (constructor ++ "(") ", " ")")) :=
    .typed d .nil fun _ => h.shows_call (opens.put "(" rfl)
  unfold filledByNumbers
  generalize eq : s.operands = os at operands ⊢
  generalize eq' : s'.operands = os' at operands ⊢
  rcases operands with _ | ⟨first, _ | ⟨second, _ | _⟩⟩
  · exact whole
  · exact whole
  · dsimp only
    rw [first.isInt, second.isInt]
    refine .ite (fun _ => whole) fun _ => ?_
    refine .ite (fun _ => .typed d .nil fun _ => L.weaken ?_) fun _ => ?_
    · exact Template.like_format_append (Site.Alike.keys_two eq eq' first second) (k := 1)
        plain opens rfl
    · refine .ite (fun _ => .typed d .nil fun _ => L.weaken ?_) fun _ => whole
      exact Template.like_format_append (Site.Alike.keys_two eq eq' first second) (k := 1)
        plain opens rfl
  · exact whole

theorem filled_agrees (value : s.node.category.isDestination = false)
    (named : s.node.category.isNamed) (name : s.name = "zeros" ∨ s.name = "ones") :
    Agrees L quieter s s' L.Shows (filled s) (filled s') := by
  have letters : '%' ∉ s.name.toList := by
    rcases name with eq | eq <;> rw [eq] <;> decide
  unfold filled
  rw [h.name, h.arity, fillShape_eq h value, fillClass_eq h value, isDimensionVector_eq h]
  dsimp only
  generalize (⟨fillShape s, fillClass s⟩ : Datatype) = d
  have plain : '%' ∉ ("arma::" ++ s.name ++ "<" ++ d.typeName ++ ">").toList := by
    simp [letters, typeName_plain d]
  have opens : L.like .free ("arma::" ++ s.name ++ "<" ++ d.typeName ++ ">")
      ("arma::" ++ s.name ++ "<" ++ d.typeName ++ ">") .free := by
    have function := (L.opening "arma::" rfl).append (Likeness.Shows.name (h.plain named))
    exact ((function.put "<" rfl).append (Likeness.shows_typeName d)).put ">" rfl
  have operands := h.operands
  generalize eq : s.operands = os at operands ⊢
  generalize eq' : s'.operands = os' at operands ⊢
  cases operands with
  | nil =>
    refine .typed _ .nil fun _ => ?_
    split
    · exact .word L "1" rfl
    · exact .word L "0" rfl
  | cons first rest =>
    refine .ite (fun _ => h.refuse named) fun _ => ?_
    refine .ite (fun _ => ?_) fun _ => filledByNumbers_agrees h plain opens d
    exact filledByVector_agrees h opens d (by simp [eq]) first

/-! ### Others -/

theorem linspace_agrees : Agrees L quieter s s' L.Shows (linspace s) (linspace s') :=
  .typed _ .nil fun _ => h.shows_call (L.opening "arma::linspace<rowvec>(" rfl)

theorem diagonal_agrees (named : s.node.category.isNamed) {o o' : Operand}
    {os os' : List Operand} (eq : s.operands = o :: os) (eq' : s'.operands = o' :: os')
    (alike : o.Alike L o') :
    Agrees L quieter s s' L.Shows (diagonal o s) (diagonal o' s') := by
  unfold diagonal
  rw [alike.numeric, alike.shape, alike.typing, alike.datatype]
  refine .ite (fun _ => .keep h .nil fun _ => h.shows_verbatim named) fun _ => ?_
  split
  · refine .withTyping _ .nil fun _ => ?_
    exact Template.like_format (Site.Alike.keys_one eq eq' alike) (k := 1) rfl
  · exact .typed _ .nil fun _ => h.shows_call (L.opening "arma::diagmat(" rfl)
  · exact .typed _ .nil fun _ => h.shows_call (L.opening "arma::diagmat(" rfl)
  · exact .typed _ .nil fun _ => h.shows_call (L.opening "arma::diagvec(" rfl)
  · exact h.refuse named

theorem diag_agrees (named : s.node.category.isNamed) :
    Agrees L quieter s s' L.Shows (diag s) (diag s') := by
  have operands := h.operands
  unfold diag
  generalize eq : s.operands = os at operands ⊢
  generalize eq' : s'.operands = os' at operands ⊢
  rcases operands with _ | ⟨first, _ | ⟨second, _ | _⟩⟩
  · exact h.refuse named
  · exact diagonal_agrees h named eq eq' first
  · exact diagonal_agrees h named eq eq' first
  · exact h.refuse named

theorem hankel_agrees : Agrees L quieter s s' L.Shows (hankel s) (hankel s') := by
  have cls : hankelClass s' = hankelClass s := by
    have operands := h.operands
    unfold hankelClass
    generalize s.operands = os at operands
    generalize s'.operands = os' at operands
    cases operands with
    | nil => rfl
    | cons first => simp only [first.numeric, first.cls]
  unfold hankel
  rw [cls]
  exact .typed _ .use fun _ => h.shows_call (L.opening "m2cpp::hankel(" rfl)

end

/-! ## Elementwise -/

section

variable (h : s.Alike L quieter s')
include h

theorem ofOne_agrees (named : s.node.category.isNamed) {rule : Operand → Rule}
    (one : ∀ {o o'}, s.operands = [o] → s'.operands = [o'] → o.Alike L o' →
      Agrees L quieter s s' L.Shows (rule o s) (rule o' s')) :
    Agrees L quieter s s' L.Shows (ofOne rule s) (ofOne rule s') := by
  have operands := h.operands
  unfold ofOne
  generalize eq : s.operands = os at operands ⊢
  generalize eq' : s'.operands = os' at operands ⊢
  rcases operands with _ | ⟨first, _ | _⟩
  · exact h.refuse named
  · exact one eq eq' first
  · exact h.refuse named

omit h in
theorem library_eq (shape : Shape) : library shape = "std" ∨ library shape = "arma" := by
  unfold library
  split
  · exact .inl rfl
  · exact .inr rfl

omit h in
theorem shows_applied {function : String} (scanned : ∀ lib : String, lib = "std" ∨ lib = "arma" →
      Template.scan [['0']] 1 .free (lib ++ "::" ++ function ++ "(%(0)s)").toList = some .free)
    (shape : Shape) {n n' : Node} {o o' : Operand} {os os' : List Operand}
    (eq : s.operands = o :: os) (eq' : s'.operands = o' :: os') (alike : o.Alike L o') :
    L.Shows ((applied shape function).render n s.texts)
      ((applied shape function).render n' s'.texts) :=
  L.weaken (Template.like_format (Site.Alike.keys_one eq eq' alike) (scanned _ (library_eq shape)))

theorem abs_agrees (named : s.node.category.isNamed) :
    Agrees L quieter s s' L.Shows (abs s) (abs s') := by
  refine ofOne_agrees h named fun eq eq' alike => ?_
  rw [alike.typing, alike.cls, alike.shape]
  refine .ite (fun _ => .withTyping _ .nil fun _ => h.shows_verbatim named) fun _ => ?_
  exact .withTyping _ .nil fun _ =>
    shows_applied (fun _ found => by
      rcases found with rfl | rfl <;> simp only [String.reduceAppend] <;>
        exact Template.scan_literal rfl (by decide)) _ eq eq' alike

theorem land_agrees : Agrees L quieter s s' L.Shows (land s) (land s') := by
  unfold land
  rw [h.types]
  refine .typed _ .nil fun _ => ?_
  have inner : L.Shows (Text.joined "*" s.texts) (Text.joined "*" s'.texts) :=
    Likeness.shows_joined rfl h.texts
  exact (((L.opening "(" rfl).append inner).put ")" rfl).shows

theorem lor_agrees : Agrees L quieter s s' L.Shows (lor s) (lor s') := by
  have squares : List.Forall₂ L.Shows (s.texts.map fun t => t ++ "*" ++ t)
      (s'.texts.map fun t => t ++ "*" ++ t) :=
    List.forall₂_map_left_iff.mpr (List.forall₂_map_right_iff.mpr
      (h.texts.imp fun _ _ shows => shows_both shows shows rfl))
  unfold lor
  rw [h.types]
  refine .typed _ .nil fun _ => ?_
  exact (((L.opening "(" rfl).append (Likeness.shows_joined (j := "+") rfl squares)).put ")" rfl).shows

theorem lnot_agrees (named : s.node.category.isNamed) :
    Agrees L quieter s s' L.Shows (lnot s) (lnot s') :=
  ofOne_agrees h named fun eq eq' alike => by
    rw [alike.typing]
    exact negation_agrees _ eq eq' alike

theorem transpose_agrees (named : s.node.category.isNamed) :
    Agrees L quieter s s' L.Shows (transpose s) (transpose s') :=
  ofOne_agrees h named fun eq eq' alike => by
    rw [alike.typing]
    exact transposed_agrees _ eq eq' alike

theorem ctranspose_agrees (named : s.node.category.isNamed) :
    Agrees L quieter s s' L.Shows (ctranspose s) (ctranspose s') :=
  ofOne_agrees h named fun eq eq' alike => by
    rw [alike.typing]
    exact conjugated_agrees _ eq eq' alike

theorem flipud_agrees (named : s.node.category.isNamed) :
    Agrees L quieter s s' L.Shows (flipud s) (flipud s') :=
  ofOne_agrees h named fun eq eq' alike => by
    rw [alike.typing]
    refine .withTyping _ .nil fun _ => L.weaken ?_
    exact Template.like_format (Site.Alike.keys_one eq eq' alike) (k := 1) rfl

omit h in
theorem mathFor_alike (shape : Shape) :
    Effect.AllAlike L quieter s (mathFor shape) (mathFor shape) := by
  unfold mathFor
  exact .ite .use .nil

theorem rounded_agrees (named : s.node.category.isNamed) {o o' : Operand} {os os' : List Operand}
    (eq : s.operands = o :: os) (eq' : s'.operands = o' :: os') (alike : o.Alike L o')
    {places places' : Option Operand}
    (same : places'.all (·.node.isInt 0) = places.all (·.node.isInt 0))
    (two : places.all (·.node.isInt 0) = false → ∀ n n' : Node, ∀ key ∈ [['0'], ['1']],
      Template.KeyAlike L n n' s.texts s'.texts key) :
    Agrees L quieter s s' L.Shows (rounded o places s) (rounded o' places' s') := by
  unfold rounded
  rw [alike.typing, alike.cls, alike.shape, same]
  refine .ite (fun _ => .withTyping _ .nil fun _ => h.shows_verbatim named) fun _ => ?_
  refine .ite (fun _ => .withTyping _ .nil fun _ => ?_) fun _ => ?_
  · exact Template.like_format (Site.Alike.keys_one eq eq' alike) (k := 1) rfl
  · refine .ite (fun _ => .withTyping _ (mathFor_alike _) fun _ => ?_) fun some =>
      .withTyping _ (mathFor_alike _) fun _ => L.weaken ?_
    · exact shows_applied (fun _ found => by
      rcases found with rfl | rfl <;> simp only [String.reduceAppend] <;>
        exact Template.scan_literal rfl (by decide)) _ eq eq' alike
    · have scanned : ∀ shape : Shape, Template.scan [['0'], ['1']] 3 .free
          (library shape ++ "::round(%(0)s*std::pow(10, %(1)s))*std::pow(10, -%(1)s)").toList
            = Option.some .free := fun shape => by
        rcases library_eq shape with eq | eq <;> rw [eq] <;> simp only [String.reduceAppend] <;>
          exact Template.scan_literal rfl (by decide)
      exact Template.like_format (two (Bool.eq_false_iff.mpr some) _ _) (scanned o.shape)

theorem round_agrees (named : s.node.category.isNamed) :
    Agrees L quieter s s' L.Shows (round s) (round s') := by
  have operands := h.operands
  unfold round
  generalize eq : s.operands = os at operands ⊢
  generalize eq' : s'.operands = os' at operands ⊢
  rcases operands with _ | ⟨first, _ | ⟨second, _ | _⟩⟩
  · exact h.refuse named
  · exact rounded_agrees h named eq eq' first rfl nofun
  · exact rounded_agrees h named eq eq' first (second.isInt 0) fun _ _ _ =>
      Site.Alike.keys_two eq eq' first second
  · exact h.refuse named

theorem floor_agrees (named : s.node.category.isNamed) :
    Agrees L quieter s s' L.Shows (floor s) (floor s') := by
  refine ofOne_agrees h named fun eq eq' alike => ?_
  rw [alike.typing, alike.cls, alike.shape]
  refine .ite (fun _ => .withTyping _ .nil fun _ => h.shows_verbatim named) fun _ => ?_
  exact .withTyping _ (mathFor_alike _) fun _ =>
    shows_applied (fun _ found => by
      rcases found with rfl | rfl <;> simp only [String.reduceAppend] <;>
        exact Template.scan_literal rfl (by decide)) _ eq eq' alike

theorem part_agrees (named : s.node.category.isNamed) (name : s.name = "real" ∨ s.name = "imag") :
    Agrees L quieter s s' L.Shows (part s) (part s') := by
  refine ofOne_agrees h named fun eq eq' alike => ?_
  rw [alike.typing, alike.cls, h.name]
  refine .withTyping _ .nil fun _ => L.weaken ?_
  rcases name with name | name <;> rw [name] <;> simp only [String.reduceAppend] <;>
    exact Template.like_format (Site.Alike.keys_one eq eq' alike) (k := 1) rfl

theorem conj_agrees (named : s.node.category.isNamed) :
    Agrees L quieter s s' L.Shows (conj s) (conj s') :=
  ofOne_agrees h named fun eq eq' alike => by
    rw [alike.typing]
    refine .withTyping _ .nil fun _ => L.weaken ?_
    exact Template.like_format (Site.Alike.keys_one eq eq' alike) (k := 1) rfl

end

/-! ## Reductions -/

section

variable (h : s.Alike L quieter s')
include h

omit h in
/-- A reduction over the first argument, whose name is one of a few. -/
theorem shows_reduced {function : String} {n n' : Node} {o o' : Operand} {os os' : List Operand}
    (eq : s.operands = o :: os) (eq' : s'.operands = o' :: os') (alike : o.Alike L o')
    (scanned : Template.scan [['0']] 1 .free ("arma::" ++ function ++ "(%(0)s)").toList = some .free := by
      simp only [String.reduceAppend]; exact MatrixScript.Template.scan_literal rfl (by decide)) :
    L.Shows ((reduced function).render n s.texts) ((reduced function).render n' s'.texts) :=
  L.weaken (Template.like_format (Site.Alike.keys_one eq eq' alike) scanned)

theorem truthOfMatrix_agrees (name : s.name = "any" ∨ s.name = "all") {o o' : Operand}
    {os os' : List Operand} (eq : s.operands = o :: os) (eq' : s'.operands = o' :: os')
    (alike : o.Alike L o') :
    Agrees L quieter s s' L.Shows (truthOfMatrix o s) (truthOfMatrix o' s') := by
  have operands := h.operands
  have single : ∀ n n' : Node, L.Shows ((reduced s.name).render n s.texts)
      ((reduced s.name).render n' s'.texts) := by
    intro n n'
    rcases name with name | name <;> rw [name] <;>
      exact shows_reduced eq eq' alike
  unfold truthOfMatrix
  rw [alike.typing, h.id, h.name]
  dsimp only
  generalize seq : s.operands = ps at operands ⊢
  generalize seq' : s'.operands = ps' at operands ⊢
  rcases operands with _ | ⟨first, _ | ⟨axis, _ | _⟩⟩
  · exact .withTyping _ .report fun _ => single _ _
  · exact .withTyping _ .report fun _ => single _ _
  · dsimp only
    rw [axis.intValue?]
    split
    · refine .typed _ .nil fun _ => L.weaken ?_
      rcases name with name | name <;> rw [name] <;> simp only [reducedAlong, String.reduceAppend] <;>
        exact Template.like_format (Site.Alike.keys_one seq seq' first) (k := 1) rfl
    · refine .typed _ .nil fun _ => L.weaken ?_
      rcases name with name | name <;> rw [name] <;> simp only [reducedAlong, String.reduceAppend] <;>
        exact Template.like_format (Site.Alike.keys_one seq seq' first) (k := 1) rfl
    · refine .withTyping _ .report fun _ => L.weaken ?_
      rcases name with name | name <;> rw [name] <;> simp only [reducedAlong, String.reduceAppend] <;>
        exact Template.like_format (Site.Alike.keys_two seq seq' first axis) (k := 2) rfl
  · exact .withTyping _ .report fun _ => single _ _

theorem truthReduction_agrees (named : s.node.category.isNamed)
    (name : s.name = "any" ∨ s.name = "all") :
    Agrees L quieter s s' L.Shows (truthReduction s) (truthReduction s') := by
  have operands := h.operands
  unfold truthReduction
  rw [h.name]
  generalize eq : s.operands = os at operands ⊢
  generalize eq' : s'.operands = os' at operands ⊢
  cases operands with
  | nil => exact .keep h .nil fun _ => h.shows_verbatim named
  | cons first rest =>
    dsimp only
    rw [first.typing, first.shape]
    refine .ite (fun _ => .keep h .nil fun _ => h.shows_verbatim named) fun _ => ?_
    split
    · refine .withTyping _ .nil fun _ => ?_
      exact Template.like_format (Site.Alike.keys_one eq eq' first) (k := 1) rfl
    · refine .typed _ .nil fun _ => ?_
      rcases name with name | name <;> rw [name] <;>
        exact shows_reduced eq eq' first
    · refine .typed _ .nil fun _ => ?_
      rcases name with name | name <;> rw [name] <;>
        exact shows_reduced eq eq' first
    · exact truthOfMatrix_agrees h name eq eq' first
    · refine .typed _ .nil fun _ => h.shows_call ?_
      exact ((L.opening "arma::" rfl).append (Likeness.Shows.name (h.plain named))).put "(" rfl
    · exact .withTyping _ .nil fun _ => h.shows_verbatim named

theorem extremumOfArrays_agrees (named : s.node.category.isNamed)
    (name : s.name = "min" ∨ s.name = "max") {o o' : Operand} {os os' : List Operand}
    (eq : s.operands = o :: os) (eq' : s'.operands = o' :: os') (alike : o.Alike L o') :
    Agrees L quieter s s' L.Shows (extremumOfArrays o s) (extremumOfArrays o' s') := by
  have operands := h.operands
  unfold extremumOfArrays
  rw [alike.datatype, h.id, h.name, h.wrongArity]
  dsimp only
  generalize seq : s.operands = ps at operands ⊢
  generalize seq' : s'.operands = ps' at operands ⊢
  rcases operands with _ | ⟨first, _ | ⟨second, _ | ⟨axis, _ | _⟩⟩⟩
  · exact .typed _ .report fun _ => h.shows_verbatim named
  · refine .typed _ .nil fun _ => ?_
    rcases name with name | name <;> rw [name] <;> exact shows_reduced eq eq' alike
  · refine .typed _ .nil fun _ => L.weaken ?_
    rcases name with name | name <;> rw [name] <;> simp only [reducedAlong, String.reduceAppend] <;>
      exact Template.like_format (Site.Alike.keys_two seq seq' first second) (k := 2) rfl
  · dsimp only
    rw [axis.intValue?]
    split
    · refine .typed _ .nil fun _ => L.weaken ?_
      rcases name with name | name <;> rw [name] <;> simp only [reducedAlong, String.reduceAppend] <;>
        exact Template.like_format (Site.Alike.keys_one eq eq' alike) (k := 1) rfl
    · refine .typed _ .nil fun _ => L.weaken ?_
      rcases name with name | name <;> rw [name] <;> simp only [reducedAlong, String.reduceAppend] <;>
        exact Template.like_format (Site.Alike.keys_one eq eq' alike) (k := 1) rfl
    · refine .withTyping _ .report fun _ => L.weaken ?_
      rcases name with name | name <;> rw [name] <;> simp only [reducedAlong, String.reduceAppend] <;>
        exact Template.like_format (Site.Alike.keys_three seq seq' first second axis) (k := 2) rfl
  · exact .typed _ .report fun _ => h.shows_verbatim named

theorem extremum_agrees (named : s.node.category.isNamed)
    (name : s.name = "min" ∨ s.name = "max") :
    Agrees L quieter s s' L.Shows (extremum s) (extremum s') := by
  have operands := h.operands
  have numbers : s'.operands.all (fun o => o.isPlaceholder || o.numeric)
      = s.operands.all fun o => o.isPlaceholder || o.numeric :=
    Operand.all_eq_of_alike operands fun _ _ _ alike => by rw [alike.isPlaceholder, alike.numeric]
  have scalars := Rule.scalar_eq h
  unfold extremum
  rw [numbers, scalars, h.types, h.name]
  generalize eq : s.operands = os at operands ⊢
  generalize eq' : s'.operands = os' at operands ⊢
  cases operands with
  | nil => exact .keep h .nil fun _ => h.shows_verbatim named
  | cons first rest =>
    refine .ite (fun _ => .keep h .nil fun _ => h.shows_verbatim named) fun _ => ?_
    refine .ite (fun _ => .typed _ .nil fun _ => h.shows_call ?_) fun _ =>
      extremumOfArrays_agrees h named name eq eq' first
    exact ((L.opening "std::" rfl).append (Likeness.Shows.name (h.plain named))).put "(" rfl

/-! ### Sums -/

omit h in
theorem render_sumAlong {axis : String} (plain : '%' ∉ axis.toList) (n : Node) (t : String)
    (ts : List String) :
    (reducedAlong "sum" axis).render n (t :: ts) = "arma::sum(" ++ t ++ ", " ++ axis ++ ")" := by
  have whole : ("arma::" ++ "sum" ++ "(%(0)s, " ++ axis ++ ")").toList
      = "arma::sum(".toList ++ ('%' :: '(' :: '0' :: ')' :: 's' :: (", " ++ axis ++ ")").toList) := by
    simp
  have opens : Text.splitAtPair '%' '(' ("arma::sum(".toList
        ++ ('%' :: '(' :: '0' :: ')' :: 's' :: (", " ++ axis ++ ")").toList))
      = some ("arma::sum(".toList ++ [], '0' :: ')' :: 's' :: (", " ++ axis ++ ")").toList) := by
    rw [Template.splitAtPair_append (by decide)]
    rfl
  have closes : Text.splitAtPair ')' 's' ('0' :: ')' :: 's' :: (", " ++ axis ++ ")").toList)
      = some (['0'], (", " ++ axis ++ ")").toList) := rfl
  have rest : Text.splitAtPair '%' '(' (", " ++ axis ++ ")").toList = none := by
    have plain : '%' ∉ (", " ++ axis ++ ")").toList := by simp [plain]
    have none := Template.splitAtPair_append (b := '(') plain []
    rwa [List.append_nil] at none
  have value : Template.valueOf? n (t :: ts) ['0'] = some t := rfl
  rw [reducedAlong, Template.render, whole, Template.substitute_step opens closes,
    Template.substitute_plain rest, value]
  apply String.toList_injective
  simp

omit h in
theorem plain_of_int (v : Int) : '%' ∉ (toString v).toList := by
  have digits : ∀ n : Nat, '%' ∉ (toString n).toList := by
    intro n mem
    have digit := Nat.isDigit_of_mem_toDigits (b := 10) (n := n) (c := '%') (by decide) (by decide)
      (by simpa using mem)
    cases digit
  cases v with
  | ofNat n => exact digits n
  | negSucc n =>
    have eq : toString (Int.negSucc n) = "-" ++ toString (n + 1) := rfl
    rw [eq, String.toList_append]
    simpa using digits (n + 1)

theorem sumOf_agrees (named : s.node.category.isNamed) {o o' : Operand} {os os' : List Operand}
    (eq : s.operands = o :: os) (eq' : s'.operands = o' :: os') (alike : o.Alike L o')
    {axis axis' : Option Operand} (same : Option.Rel (Operand.Alike L) axis axis')
    (second : axis.isSome → ∀ n n' : Node, ∀ key ∈ [['0'], ['1']],
      Template.KeyAlike L n n' s.texts s'.texts key) :
    Agrees L quieter s s' L.Shows (sumOf o axis s) (sumOf o' axis' s') := by
  have literal : axis'.bind (·.node.intValue?) = axis.bind (·.node.intValue?) := by
    cases same with
    | none => rfl
    | some alike => exact alike.intValue?
  unfold sumOf
  rw [alike.numeric, alike.shape, alike.datatype, h.id, literal]
  refine .ite (fun _ => .keep h .report fun _ => h.shows_verbatim named) fun _ => ?_
  refine .typed _ .nil fun _ => ?_
  cases same with
  | none => exact shows_reduced eq eq' alike
  | @some axis axis' _ =>
    generalize (some axis).bind (·.node.intValue?) = literal
    cases literal with
    | some k =>
      rw [Site.texts, eq, Site.texts, eq', List.map_cons, List.map_cons,
        render_sumAlong (plain_of_int _), render_sumAlong (plain_of_int _)]
      have first := ((L.opening "arma::sum(" rfl).append alike.text).put ", " rfl
      exact ((first.append (Likeness.shows_int _)).put ")" rfl).shows
    | none =>
      simp only [reducedAlong, String.reduceAppend]
      exact L.weaken (Template.like_format (second rfl _ _) (k := 2) rfl)

theorem sum_agrees (named : s.node.category.isNamed) :
    Agrees L quieter s s' L.Shows (sum s) (sum s') := by
  have operands := h.operands
  unfold sum
  generalize eq : s.operands = os at operands ⊢
  generalize eq' : s'.operands = os' at operands ⊢
  rcases operands with _ | ⟨first, _ | ⟨second, _ | _⟩⟩
  · exact h.refuse named
  · exact sumOf_agrees h named eq eq' first .none nofun
  · exact sumOf_agrees h named eq eq' first (.some second) fun _ _ _ =>
      Site.Alike.keys_two eq eq' first second
  · exact h.refuse named

end

/-! ## Signals -/

section

variable (h : s.Alike L quieter s')
include h

theorem realInverse_alike {o o' : Operand} (alike : o.Alike L o') :
    Effect.AllAlike L quieter s (realInverse o s) (realInverse o' s') := by
  unfold realInverse
  rw [h.name, h.id, alike.cls, alike.datatype]
  exact .ite .report .nil

omit h in
/-- A transform with the type of its result in angle brackets. -/
theorem like_typedCall {function arguments : String} (d : Datatype) {n n' : Node}
    {ts ts' : List String} {keys : List (List Char)}
    (values : ∀ key ∈ keys, Template.KeyAlike L n n' ts ts' key) {k : Nat}
    (opens : Text.scan .free function.toList = some .free) (plain : '%' ∉ function.toList)
    (scanned : Template.scan keys k .word arguments.toList = some .free) :
    L.Shows ((Template.format (function ++ d.typeName ++ arguments)).render n ts)
      ((Template.format (function ++ d.typeName ++ arguments)).render n' ts') := by
  have front : '%' ∉ (function ++ d.typeName).toList := by
    rw [String.toList_append, List.mem_append]
    exact not_or.mpr ⟨plain, typeName_plain d⟩
  have first := (L.fixed opens).append (Likeness.shows_typeName d)
  exact L.weaken (Template.like_format_append values front first scanned)

theorem transformAlong_agrees (name : s.name = "fft" ∨ s.name = "ifft")
    {x x' l l' a a' : Operand} {os os' : List Operand} (eq : s.operands = x :: l :: a :: os)
    (eq' : s'.operands = x' :: l' :: a' :: os') (first : x.Alike L x') (second : l.Alike L l')
    (third : a.Alike L a') (n n' : Node) :
    Effect.AllAlike L quieter s (transformAlong x l s).2 (transformAlong x' l' s').2
      ∧ L.Shows ((transformAlong x l s).1.render n s.texts)
        ((transformAlong x' l' s').1.render n' s'.texts) := by
  have keys : ∀ key ∈ [['0'], ['1'], ['2']], Template.KeyAlike L n n' s.texts s'.texts key :=
    Site.Alike.keys_three eq eq' first second third
  unfold transformAlong
  rw [h.name, first.shape, first.datatype, second.isPlaceholder, second.category]
  dsimp only
  split
  · refine ⟨.nil, L.weaken ?_⟩
    dsimp only
    split <;> rcases name with name | name <;> rw [name] <;> simp only [String.reduceAppend] <;>
      exact Template.like_format keys (k := 2) rfl
  · split
    · refine ⟨.use, ?_⟩
      rcases name with name | name <;> rw [name] <;>
        exact like_typedCall x.datatype keys (k := 2) (by decide) (by decide) (by decide)
    · refine ⟨.use, ?_⟩
      rcases name with name | name <;> rw [name] <;>
        exact like_typedCall x.datatype keys (k := 3) (by decide) (by decide) (by decide)

theorem transformCall_agrees (named : s.node.category.isNamed)
    (name : s.name = "fft" ∨ s.name = "ifft") {x x' : Operand} {os os' : List Operand}
    (eq : s.operands = x :: os) (eq' : s'.operands = x' :: os') (n n' : Node) :
    Effect.AllAlike L quieter s (transformCall x s).2 (transformCall x' s').2
      ∧ L.Shows ((transformCall x s).1.render n s.texts)
        ((transformCall x' s').1.render n' s'.texts) := by
  have operands := h.operands
  have other : L.Shows
      ((Template.join ("arma::" ++ s.name ++ "(") ", " ")").render n s.texts)
      ((Template.join ("arma::" ++ s.name ++ "(") ", " ")").render n' s'.texts) :=
    h.shows_call (((L.opening "arma::" rfl).append (Likeness.Shows.name (h.plain named))).put "(" rfl)
  unfold transformCall
  rw [h.name, h.id]
  generalize seq : s.operands = ps at operands ⊢
  generalize seq' : s'.operands = ps' at operands ⊢
  rcases operands with _ | ⟨first, _ | ⟨second, _ | ⟨third, _ | _⟩⟩⟩
  · exact ⟨.report, other⟩
  · refine ⟨.nil, L.weaken ?_⟩
    rcases name with name | name <;> rw [name] <;> simp only [String.reduceAppend] <;>
      exact Template.like_format (Site.Alike.keys_one seq seq' first) (k := 1) rfl
  · refine ⟨.nil, L.weaken ?_⟩
    rcases name with name | name <;> rw [name] <;> simp only [String.reduceAppend] <;>
      exact Template.like_format (Site.Alike.keys_two seq seq' first second) (k := 2) rfl
  · cases seq.symm.trans eq
    cases seq'.symm.trans eq'
    exact transformAlong_agrees h name seq seq' first second third n n'
  · exact ⟨.report, other⟩

theorem fourier_agrees (named : s.node.category.isNamed)
    (name : s.name = "fft" ∨ s.name = "ifft") :
    Agrees L quieter s s' L.Shows (fourier s) (fourier s') := by
  have operands := h.operands
  unfold fourier
  generalize eq : s.operands = os at operands ⊢
  generalize eq' : s'.operands = os' at operands ⊢
  cases operands with
  | nil => exact h.refuse named
  | cons first rest =>
    dsimp only
    rw [first.numeric, first.datatype]
    refine .ite (fun _ => .keep h .nil fun _ => h.shows_verbatim named) fun _ => ?_
    have call := transformCall_agrees h named name eq eq'
    exact .typed _ ((realInverse_alike h first).append (call s.node s'.node).1) fun _ =>
      (call _ _).2

theorem nextpow2_agrees : Agrees L quieter s s' L.Shows (nextpow2 s) (nextpow2 s') :=
  .typed _ .use fun _ => h.shows_call (L.opening "m2cpp::nextpow2(" rfl)

theorem interp1_agrees : Agrees L quieter s s' L.Shows (interp1 s) (interp1 s') := by
  have operands := h.operands
  have call : ∀ n n' : Node,
      L.Shows ((Template.join "arma::interp1(" ", " ")").render n s.texts)
        ((Template.join "arma::interp1(" ", " ")").render n' s'.texts) := fun _ _ =>
    h.shows_call (L.opening "arma::interp1(" rfl)
  unfold interp1
  generalize s.operands = os at operands
  generalize s'.operands = os' at operands
  rcases operands with _ | ⟨_, _ | ⟨_, _ | ⟨queries, _⟩⟩⟩
  · exact .keep h .nil fun _ => call _ _
  · exact .keep h .nil fun _ => call _ _
  · exact .keep h .nil fun _ => call _ _
  · dsimp only
    rw [queries.datatype, queries.shape]
    exact .ite (fun _ => .typed _ .nil fun _ => call _ _) fun _ => .keep h .nil fun _ => call _ _

end

end BuiltinRule

end MatrixScript
