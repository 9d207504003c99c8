/-
# `Proofs.Rule.SelectAgrees` — whatever rule a node gets, it agrees

The table of rules over the lemmas of the single rules.  Rules that write the name
of a built-in need to know it: a name that selects a built-in is the canonical one,
but for two constants (`eq_of_ofName?`).  Statements give lines and everything else
gives the text of an expression (`Likeness.Writes`).
-/
import MatrixScript.Proofs.Rule.ExtentAgrees

namespace MatrixScript

/-- A name that is not capitalised selects a built-in only if it is the built-in's own. -/
theorem Builtin.eq_of_ofName? {x : String} {b : Builtin} (found : ofName? x = some b) :
    x = b.name ∨ b = .inf ∨ b = .nan := by
  obtain ⟨before, after, eq, -⟩ := List.lookup_eq_some_iff.mp found
  have mem : (x, b) ∈ spellings := by simp [eq]
  rcases List.mem_append.mp mem with canonical | capitalised
  · obtain ⟨b', -, eq⟩ := List.mem_map.mp canonical
    cases eq
    exact .inl rfl
  · simp only [List.mem_cons, List.not_mem_nil, or_false, Prod.mk.injEq] at capitalised
    rcases capitalised with ⟨-, rfl⟩ | ⟨-, rfl⟩
    · exact .inr (.inl rfl)
    · exact .inr (.inr rfl)

/-- Gives the text of an expression, or of names. -/
def Category.isInline (c : Category) : Bool := !c.isStatement && c != .block

theorem Category.ne_of_isInline {c : Category} (h : c.isInline) : c ≠ .block ∧ c ≠ .function := by
  constructor <;> rintro rfl <;> cases h

/-- What stands below anything inline is inline. -/
theorem Category.isInline_of_admits {c d : Category} {cs : List Category} (h : c.admits cs)
    (block : c ≠ .block) (function : c ≠ .function) (mem : d ∈ cs) : d.isInline := by
  have ofExpression : ∀ {d : Category}, d.isExpression → d.isInline := by
    intro d expression
    cases d <;> first | rfl | cases expression
  have each : ∀ p : Category → Bool, cs.all p → p d := fun p hp => List.all_eq_true.mp hp _ mem
  cases c with
  | block => exact absurd rfl block
  | function => exact absurd rfl function
  | get | set | cget =>
    rcases Bool.or_eq_true _ _ |>.mp (each isArgument h) with expression | all
    · exact ofExpression expression
    · rw [eq_of_beq all]
      rfl
  | params | returns =>
    rw [eq_of_beq (each (· == .var) h)]
    rfl
  | matrix =>
    rw [eq_of_beq (each (· == .row) h)]
    rfl
  | cell => exact ofExpression (each _ h)
  | statement | neg | not | transpose | ctranspose | paren | gt | ge | lt | le | ne | eq
  | add | sub | mul | elMul | rightDiv | leftDiv | elRightDiv | elLeftDiv | pow | elPow
  | andAnd | and | orOr | or | range | row =>
    exact ofExpression (each _ (Bool.and_eq_true _ _ |>.mp h).2)
  | assign =>
    match cs, h, mem with
    | [destination, value], h, mem =>
      obtain ⟨hd, hv⟩ := Bool.and_eq_true _ _ |>.mp h
      rcases List.mem_pair.mp mem with rfl | rfl
      · cases d <;> first | rfl | cases hd
      · exact ofExpression hv
  | assigns =>
    obtain ⟨destinations, value, rfl, hd, hv⟩ := exists_of_admits_assigns h
    rcases List.mem_append.mp mem with mem | mem
    · have destination := hd d mem
      cases d <;> first | rfl | cases destination
    · rw [List.mem_singleton.mp mem]
      exact ofExpression hv
  | int | float | imag | str | var | last | all | ret | brk =>
    rw [List.isEmpty_iff.mp h] at mem
    cases mem

/-- Relates what nodes of a category give: texts of expressions, or lines. -/
def Likeness.Writes (L : Likeness) (c : Category) : String → String → Prop :=
  if c.isInline then L.Shows else L.prints

namespace Rule

variable {L : Likeness} {quieter : Prop} {s s' : Site}

section

variable (h : s.Alike L quieter s')
include h

theorem builtinOf?_eq : builtinOf? s'.tree s'.node = builtinOf? s.tree s.node := by
  have children : s'.node.children = s.node.children := h.field Node.children fun _ => rfl
  have name : s'.node.name = s.node.name := h.name
  unfold builtinOf?
  rw [h.redirect, h.category, children, name]
  simp only [show ∀ i, (s'.tree.node i).category = (s.tree.node i).category from
    congrFun (Tree.category_of_bare h.bare), Tree.name_of_bare h.bare]

omit h in
/-- The name of a node whose built-in is none of the capitalised constants. -/
theorem name_of_builtinOf? (redirect : s.node.redirect = none)
    (category : s.node.category = .var ∨ s.node.category = .get) {b : Builtin}
    (found : builtinOf? s.tree s.node = some b) (inf : b ≠ .inf) (nan : b ≠ .nan) :
    s.name = b.name := by
  unfold builtinOf? at found
  rw [redirect] at found
  rcases category with category | category <;> rw [category] at found <;>
    exact (Builtin.eq_of_ofName? found).resolve_right fun constant => constant.elim inf nan

theorem ofBareName?_agrees (category : s.node.category = .var) {b : Builtin} {rule : Rule}
    (eq : ofBareName? b = some rule) : Agrees L quieter s s' L.Shows (rule s) (rule s') := by
  have named : s.node.category.isNamed := by
    rw [category]
    rfl
  cases b <;> first | cases eq; done | obtain rfl := Option.some.inj eq
  case tic => exact BuiltinRule.tic_agrees h
  case toc => exact BuiltinRule.toc_agrees h
  case clear | close | plot | hold => exact BuiltinRule.housekeeping_agrees h named
  case pi | inf | nan => exact BuiltinRule.constant_agrees _ (.word L _ rfl)
  case truth | falsity | eye => exact BuiltinRule.constant_agrees _ (.word L _ rfl)
  all_goals exact BuiltinRule.constant_agrees _ (L.opening _ rfl).shows

theorem ofCall?_agrees (category : s.node.category = .get) {b : Builtin} {rule : Rule}
    (eq : ofCall? b = some rule)
    (name : b ≠ .inf → b ≠ .nan → s.name = b.name) :
    Agrees L quieter s s' L.Shows (rule s) (rule s') := by
  have named : s.node.category.isNamed := by
    rw [category]
    rfl
  have value : s.node.category.isDestination = false := by
    rw [category]
    rfl
  cases b <;> first | cases eq; done | obtain rfl := Option.some.inj eq
  all_goals replace name := name nofun nofun
  case abs => exact BuiltinRule.abs_agrees h named
  case land => exact BuiltinRule.land_agrees h
  case lor => exact BuiltinRule.lor_agrees h
  case lnot => exact BuiltinRule.lnot_agrees h named
  case any => exact BuiltinRule.truthReduction_agrees h named (.inl name)
  case all => exact BuiltinRule.truthReduction_agrees h named (.inr name)
  case size => exact BuiltinRule.size_agrees h named
  case length => exact BuiltinRule.length_agrees h named
  case min => exact BuiltinRule.extremum_agrees h named (.inl name)
  case max => exact BuiltinRule.extremum_agrees h named (.inr name)
  case eye => exact BuiltinRule.eye_agrees h named
  case transpose => exact BuiltinRule.transpose_agrees h named
  case ctranspose => exact BuiltinRule.ctranspose_agrees h named
  case flipud => exact BuiltinRule.flipud_agrees h named
  case zeros => exact BuiltinRule.filled_agrees h value named (.inl name)
  case ones => exact BuiltinRule.filled_agrees h value named (.inr name)
  case round => exact BuiltinRule.round_agrees h named
  case floor => exact BuiltinRule.floor_agrees h named
  case rand => exact BuiltinRule.rand_agrees h named
  case nextpow2 => exact BuiltinRule.nextpow2_agrees h
  case fft => exact BuiltinRule.fourier_agrees h named (.inl name)
  case ifft => exact BuiltinRule.fourier_agrees h named (.inr name)
  case hankel => exact BuiltinRule.hankel_agrees h
  case interp1 => exact BuiltinRule.interp1_agrees h
  case linspace => exact BuiltinRule.linspace_agrees h
  case sum => exact BuiltinRule.sum_agrees h named
  case real => exact BuiltinRule.part_agrees h named (.inl name)
  case imag => exact BuiltinRule.part_agrees h named (.inr name)
  case conj => exact BuiltinRule.conj_agrees h named
  case diag => exact BuiltinRule.diag_agrees h named
  case tic => exact BuiltinRule.tic_agrees h
  case toc => exact BuiltinRule.toc_agrees h
  all_goals exact BuiltinRule.housekeeping_agrees h named

/-- A built-in that several destinations take apart is called. -/
theorem named_of_builtinOf? (redirect : s.node.redirect = none)
    (category : s.node.category = .assigns) {b : Builtin}
    (found : builtinOf? s.tree s.node = some b) :
    ∀ v ∈ s.operands.getLast?, v.node.category.isNamed := by
  intro v mem
  have there : v ∈ s.operands := List.mem_of_mem_getLast? mem
  have last : s.node.children.getLast? = some v.id := by
    rw [show s.node.children = s.operands.map (·.id) from h.ids.symm, List.getLast?_map, mem]
    rfl
  unfold builtinOf? at found
  rw [redirect, category] at found
  dsimp only at found
  rw [last] at found
  dsimp only at found
  rw [h.sound.node v there]
  split at found
  case isTrue get =>
    rw [eq_of_beq get]
    rfl
  case isFalse => cases found

theorem ofDestructured?_agrees (category : s.node.category = .assigns) {b : Builtin} {rule : Rule}
    (eq : ofDestructured? b = some rule)
    (named : ∀ v ∈ s.operands.getLast?, v.node.category.isNamed) :
    Agrees L quieter s s' L.prints (rule s) (rule s') := by
  cases b <;> first | cases eq; done | obtain rfl := Option.some.inj eq
  case size => exact BuiltinRule.assignsSize_agrees h category
  all_goals exact BuiltinRule.assignsExtremum_agrees h category named

theorem ofBuiltin?_agrees {b : Builtin} (found : builtinOf? s.tree s.node = some b) {rule : Rule}
    (eq : ofBuiltin? s.node.category b = some rule) :
    Agrees L quieter s s' (L.Writes s.node.category) (rule s) (rule s') := by
  have redirect : s.node.category ≠ .assign → s.node.redirect = none := by
    intro other
    cases redirect : s.node.redirect with
    | none => rfl
    | some b => exact absurd (h.redirected b redirect).2.1 other
  cases category : s.node.category <;> rw [category] at eq redirect
  case var => exact ofBareName?_agrees h category eq
  case get =>
    exact ofCall?_agrees h category eq (name_of_builtinOf? (redirect nofun) (.inr category) found)
  case assigns =>
    exact ofDestructured?_agrees h category eq
      (named_of_builtinOf? h (redirect nofun) category found)
  case assign =>
    cases b <;> first | cases eq; done | obtain rfl := Option.some.inj eq
    refine BuiltinRule.assignSize_agrees h ?_
    unfold builtinOf? at found
    rw [category] at found
    split at found
    case h_1 redirected => rw [redirected, found]
    case h_2 => cases found
  all_goals cases eq

theorem ofCategory?_agrees (other : s.node.category ≠ .function) {rule : Rule}
    (eq : ofCategory? s.node.category = some rule) :
    Agrees L quieter s s' (L.Writes s.node.category) (rule s) (rule s') := by
  have chained : s.node.category.isChained → s.operands ≠ [] :=
    fun chained => operands_ne_nil h.sound (.inl chained)
  cases category : s.node.category <;> rw [category] at eq chained other <;>
    first | cases eq; done | obtain rfl := Option.some.inj eq
  case statement => exact statement_agrees h category
  case assign => exact assign_agrees h category
  case assigns => exact assigns_agrees h category
  case function => exact absurd rfl other
  case params => exact names_agrees h
  case returns => exact names_agrees h
  case ret => exact ret_agrees h
  case brk => exact brk_agrees h
  case var => exact var_agrees h category
  case get => exact subscript_agrees h (by rw [category]; rfl)
  case set => exact subscript_agrees h (by rw [category]; rfl)
  case int => exact int_agrees h category
  case float => exact float_agrees h category
  case imag => exact imag_agrees h category
  case str => exact string_agrees h category
  case matrix => exact matrix_agrees h
  case row => exact row_agrees h
  case add => exact add_agrees h
  case sub => exact sub_agrees h
  case mul => exact mul_agrees h (chained rfl)
  case elMul => exact elMul_agrees h
  case rightDiv => exact rightDiv_agrees h (chained rfl)
  case leftDiv => exact leftDiv_agrees h (chained rfl)
  case elRightDiv => exact elRightDiv_agrees h (chained rfl)
  case elLeftDiv => exact elLeftDiv_agrees h (chained rfl)
  case pow => exact power_agrees h (chained rfl)
  case elPow => exact power_agrees h (chained rfl)
  case neg => exact neg_agrees h (by rw [category]; rfl)
  case not => exact not_agrees h (by rw [category]; rfl)
  case transpose => exact transpose_agrees h (by rw [category]; rfl)
  case ctranspose => exact ctranspose_agrees h (by rw [category]; rfl)
  case paren => exact paren_agrees h (by rw [category]; rfl)
  case range => exact range_agrees h category
  case all => exact all_agrees h
  case last => exact last_agrees h
  all_goals first | exact comparison_agrees h rfl | exact logical_agrees h rfl

theorem untranslated_agrees (inline : s.node.category.isInline) :
    Agrees L quieter s s' (L.Writes s.node.category) (untranslated s) (untranslated s') := by
  have writes : L.Writes s.node.category = L.Shows := by
    rw [Likeness.Writes, inline]
    rfl
  unfold untranslated
  rw [h.id, h.category, h.label, writes]
  exact .keep h .report fun _ => h.spelt.shows_label h.wellFormed s.id

/-- Whatever rule a node gets, but that of a function, it answers alike; a block gets none. -/
theorem select_agrees (other : s.node.category ≠ .function) (block : s.node.category ≠ .block) :
    Agrees L quieter s s' (L.Writes s.node.category) (select s.tree s.node s)
      (select s'.tree s'.node s') := by
  unfold select
  rw [builtinOf?_eq h, h.category]
  cases chosen : (builtinOf? s.tree s.node).bind (ofBuiltin? s.node.category) with
  | some rule =>
    obtain ⟨b, found, eq⟩ := Option.bind_eq_some_iff.mp chosen
    exact ofBuiltin?_agrees h found eq
  | none =>
    cases found : ofCategory? s.node.category with
    | some rule => exact ofCategory?_agrees h other found
    | none =>
      refine untranslated_agrees h ?_
      cases category : s.node.category <;> rw [category] at found block <;>
        first | rfl | exact absurd rfl block | cases found

end

/-- A function has the rule of its category. -/
theorem select_function {t : Tree} {n : Node} (category : n.category = .function) :
    select t n = function := by
  have none : (builtinOf? t n).bind (ofBuiltin? n.category) = none := by
    rw [category]
    cases builtinOf? t n <;> rfl
  rw [select, none, category]
  rfl

end Rule

end MatrixScript
