/-
# `Proofs.Rule.SelectPhrased` — whatever rule a node gets, it puts phrases together

The table of rules over the lemmas of the single rules.  Statements give lines that are
phrases, and everything else a phrase; of a row it says besides when that is a list
(`Site.Gives`).
-/
import MatrixScript.Proofs.Rule.BuiltinPhrased

namespace MatrixScript

open Cpp

/-- Only matrices and functions have children whose texts are lists. -/
theorem Category.isListing_of_admits {c d : Category} {cs : List Category} (h : c.admits cs)
    (block : c ≠ .block) (matrix : c ≠ .matrix) (function : c ≠ .function) (mem : d ∈ cs) :
    d.isListing = false := by
  have single : ∀ {p : Category → Bool}, cs.all p → (∀ d : Category, p d → d.isListing = false) →
      d.isListing = false := fun all none => none d (List.all_eq_true.mp all d mem)
  have expression : ∀ d : Category, d.isExpression → d.isListing = false := by
    intro d expression
    cases d <;> first | rfl | cases expression
  have argument : ∀ d : Category, d.isArgument → d.isListing = false := by
    intro d argument
    cases d <;> first | rfl | cases argument
  have destination : ∀ d : Category, d.isDestination → d.isListing = false := by
    intro d destination
    cases d <;> first | rfl | cases destination
  have variable_ : ∀ d : Category, d == .var → d.isListing = false := by
    intro d var
    rw [eq_of_beq var]
    rfl
  cases c with
  | block => exact absurd rfl block
  | matrix => exact absurd rfl matrix
  | function => exact absurd rfl function
  | get | set | cget => exact single h argument
  | params | returns => exact single h variable_
  | cell => exact single h expression
  | statement | neg | not | transpose | ctranspose | paren | gt | ge | lt | le | ne | eq
  | add | sub | mul | elMul | rightDiv | leftDiv | elRightDiv | elLeftDiv | pow | elPow
  | andAnd | and | orOr | or | range | row =>
    exact single (Bool.and_eq_true _ _ |>.mp h).2 expression
  | assign =>
    match cs, h, mem with
    | [d', v], h, mem =>
      obtain ⟨hd, hv⟩ := Bool.and_eq_true _ _ |>.mp h
      rcases List.mem_pair.mp mem with rfl | rfl
      · exact destination _ hd
      · exact expression _ hv
  | assigns =>
    obtain ⟨destinations, value, rfl, hd, hv⟩ := exists_of_admits_assigns h
    rcases List.mem_append.mp mem with mem | mem
    · exact destination d (hd d mem)
    · rw [List.mem_singleton.mp mem]
      exact expression _ hv
  | int | float | imag | str | var | last | all | ret | brk =>
    rw [List.isEmpty_iff.mp h] at mem
    cases mem

namespace Site

variable {I : Idiom} {s : Site}

/-- Text of a node: lines, or a phrase.  A row is a list only if all its elements are
scalars, and there are several. -/
def Gives (I : Idiom) (s : Site) (a : String) : Prop :=
  if s.node.category.isInline then
    Phrase I s.node.category.isListing a ∧ (s.node.category = .row → Phrase I false a
      ∨ ((∀ o ∈ s.operands, o.shape = .scalar ∧ o.node.category ≠ .range) ∧ 1 < s.operands.length))
  else Prints I a

theorem Tells.mono {R R' : String → Prop} (more : ∀ a, R a → R' a) {answer : Except Error Outcome}
    (h : s.Tells I R answer) : s.Tells I R' answer := by
  cases answer with
  | error => exact h
  | ok => exact ⟨h.1, fun used => more _ (h.2 used)⟩

/-- The text of an expression is a phrase. -/
theorem Tells.gives {answer : Except Error Outcome} (h : s.Tells I (Phrase I false) answer)
    (inline : s.node.category.isInline) (listing : s.node.category.isListing = false) :
    s.Tells I (s.Gives I) answer := by
  refine h.mono fun a phrase => ?_
  rw [Gives, if_pos inline, listing]
  exact ⟨phrase, fun _ => .inl phrase⟩

theorem Tells.printed {answer : Except Error Outcome} (h : s.Tells I (Prints I) answer)
    (statement : s.node.category.isInline = false) : s.Tells I (s.Gives I) answer := by
  refine h.mono fun a prints => ?_
  rw [Gives, statement]
  exact prints

/-- What stands for a node before it is resolved is a word. -/
theorem Phrased.label (h : s.Phrased I) {list : Bool} : Phrase I list s.node.label := by
  unfold Node.label
  split
  case isTrue => exact phrase_categoryName _
  case isFalse named =>
    have lt : s.id < s.tree.size := by
      by_contra out
      refine named ?_
      rw [Site.node, Tree.node_of_size_le (Nat.le_of_not_lt out)]
      rfl
    exact phrase_name (h.name ((h.self.wellFormed.shaped s.id lt).name.mp named))

end Site

namespace Rule

variable {I : Idiom} {s : Site}

section

variable (h : s.Phrased I)
include h

theorem phrases_operands (block : s.node.category ≠ .block) (matrix : s.node.category ≠ .matrix)
    (function : s.node.category ≠ .function) :
    (∀ o ∈ s.operands, Phrase I false o.text) ∧ ∀ o ∈ s.operands, Phrase I false o.node.text := by
  have listing : ∀ o ∈ s.operands, o.node.category.isListing = false := fun o mem =>
    Category.isListing_of_admits h.self.sound.admits block matrix function
      (List.mem_map_of_mem (f := fun o : Operand => o.node.category) mem)
  refine ⟨fun o mem => ?_, fun o mem => ?_⟩
  · have phrase := h.operands o mem
    rwa [listing o mem] at phrase
  · have phrase := h.rendered o mem
    rwa [listing o mem] at phrase

theorem ofBareName?_tells (category : s.node.category = .var)
    (texts : ∀ o ∈ s.operands, Phrase I false o.text) {b : Builtin} {rule : Rule}
    (eq : ofBareName? b = some rule) : s.Tells I (Phrase I false) (rule s) := by
  have named : s.node.category.isNamed := by
    rw [category]
    rfl
  cases b <;> first | cases eq; done | obtain rfl := Option.some.inj eq
  case tic => exact BuiltinRule.tic_tells
  case toc => exact BuiltinRule.toc_tells
  case clear | close | plot | hold => exact BuiltinRule.housekeeping_tells h named texts
  all_goals exact BuiltinRule.constant_tells _ (phrase_fixed I _ rfl)

theorem ofCall?_tells (category : s.node.category = .get)
    (texts : ∀ o ∈ s.operands, Phrase I false o.text)
    (rendered : ∀ o ∈ s.operands, Phrase I false o.node.text) {b : Builtin} {rule : Rule}
    (eq : ofCall? b = some rule) (name : b ≠ .inf → b ≠ .nan → s.name = b.name) :
    s.Tells I (Phrase I false) (rule s) := by
  have named : s.node.category.isNamed := by
    rw [category]
    rfl
  cases b <;> first | cases eq; done | obtain rfl := Option.some.inj eq
  all_goals replace name := name nofun nofun
  case abs => exact BuiltinRule.abs_tells texts h named
  case land => exact BuiltinRule.land_tells texts
  case lor => exact BuiltinRule.lor_tells texts
  case lnot => exact BuiltinRule.lnot_tells texts h named
  case any | all => exact BuiltinRule.truthReduction_tells texts h named
  case size => exact BuiltinRule.size_tells texts h named
  case length => exact BuiltinRule.length_tells texts h named
  case min | max => exact BuiltinRule.extremum_tells texts h named
  case eye => exact BuiltinRule.eye_tells texts h named
  case transpose => exact BuiltinRule.transpose_tells texts h named
  case ctranspose => exact BuiltinRule.ctranspose_tells texts h named
  case flipud => exact BuiltinRule.flipud_tells texts h named
  case zeros | ones => exact BuiltinRule.filled_tells texts h rendered named
  case round => exact BuiltinRule.round_tells texts h named
  case floor => exact BuiltinRule.floor_tells texts h named
  case rand => exact BuiltinRule.rand_tells texts h named
  case nextpow2 => exact BuiltinRule.nextpow2_tells texts
  case fft => exact BuiltinRule.fourier_tells texts h named (.inl name)
  case ifft => exact BuiltinRule.fourier_tells texts h named (.inr name)
  case hankel => exact BuiltinRule.hankel_tells texts
  case interp1 => exact BuiltinRule.interp1_tells texts
  case linspace => exact BuiltinRule.linspace_tells texts
  case sum => exact BuiltinRule.sum_tells texts h named
  case real | imag => exact BuiltinRule.part_tells texts h named
  case conj => exact BuiltinRule.conj_tells texts h named
  case diag => exact BuiltinRule.diag_tells texts h named
  case tic => exact BuiltinRule.tic_tells
  case toc => exact BuiltinRule.toc_tells
  all_goals exact BuiltinRule.housekeeping_tells h named texts

/-- What several destinations take apart by a rule of its own is a call. -/
theorem get_of_builtinOf? (redirect : s.node.redirect = none)
    (category : s.node.category = .assigns) {b : Builtin}
    (found : builtinOf? s.tree s.node = some b) :
    ∀ v ∈ s.operands.getLast?, v.node.category = .get := by
  intro v mem
  have there : v ∈ s.operands := List.mem_of_mem_getLast? mem
  have last : s.node.children.getLast? = some v.id := by
    rw [show s.node.children = s.operands.map (·.id) from h.self.ids.symm, List.getLast?_map, mem]
    rfl
  unfold builtinOf? at found
  rw [redirect, category] at found
  dsimp only at found
  rw [last] at found
  dsimp only at found
  rw [h.self.sound.node v there]
  split at found
  case isTrue get => exact eq_of_beq get
  case isFalse => cases found

/-- Nodes that are no assignments are not redirected. -/
theorem redirect_eq_none (other : s.node.category ≠ .assign) : s.node.redirect = none := by
  cases redirect : s.node.redirect with
  | none => rfl
  | some b => exact absurd (h.self.redirected b redirect).2.1 other

theorem ofBuiltin?_tells {b : Builtin} (found : builtinOf? s.tree s.node = some b) {rule : Rule}
    (eq : ofBuiltin? s.node.category b = some rule) : s.Tells I (s.Gives I) (rule s) := by
  have redirect := redirect_eq_none h
  have phrases := phrases_operands h
  cases category : s.node.category <;> rw [category] at eq redirect phrases
  case var =>
    obtain ⟨texts, -⟩ := phrases nofun nofun nofun
    exact (ofBareName?_tells h category texts eq).gives (by rw [category]; rfl) (by rw [category]; rfl)
  case get =>
    obtain ⟨texts, rendered⟩ := phrases nofun nofun nofun
    refine (ofCall?_tells h category texts rendered eq ?_).gives (by rw [category]; rfl)
      (by rw [category]; rfl)
    exact name_of_builtinOf? (redirect nofun) (.inr category) found
  case assigns =>
    obtain ⟨texts, -⟩ := phrases nofun nofun nofun
    have call := get_of_builtinOf? h (redirect nofun) category found
    refine Site.Tells.printed ?_ (by rw [category]; rfl)
    cases b <;> first | cases eq; done | obtain rfl := Option.some.inj eq
    case size => exact BuiltinRule.assignsSize_tells texts h category call
    all_goals exact BuiltinRule.assignsExtremum_tells texts h category call
  case assign =>
    obtain ⟨texts, -⟩ := phrases nofun nofun nofun
    cases b <;> first | cases eq; done | obtain rfl := Option.some.inj eq
    refine (BuiltinRule.assignSize_tells texts h ?_).printed (by rw [category]; rfl)
    unfold builtinOf? at found
    rw [category] at found
    split at found
    case h_1 redirected => rw [redirected, found]
    case h_2 => cases found
  all_goals cases eq

/-- The operand of a unary operator. -/
theorem exists_operand (unary : s.node.category.isUnary) : ∃ o, s.operands = [o] := by
  have admits := h.self.sound.admits
  have single : (s.operands.map (·.node.category)).length = 1 := by
    cases category : s.node.category <;> rw [category] at unary admits <;>
      first | cases unary; done | exact eq_of_beq (Bool.and_eq_true _ _ |>.mp admits).1
  rw [List.length_map] at single
  exact List.length_eq_one_iff.mp single

theorem ofCategory?_tells (other : s.node.category ≠ .function) {rule : Rule}
    (eq : ofCategory? s.node.category = some rule) : s.Tells I (s.Gives I) (rule s) := by
  have phrases := phrases_operands h
  have operand := exists_operand h
  cases category : s.node.category <;> rw [category] at eq other phrases operand <;>
    first | cases eq; done | obtain rfl := Option.some.inj eq
  case function => exact absurd rfl other
  case matrix =>
    have rows : ∀ o ∈ s.operands, Phrase I true o.text := by
      intro o mem
      have phrase := h.operands o mem
      cases listing : o.node.category.isListing <;> rw [listing] at phrase
      · exact phrase.weaken true
      · exact phrase
    exact (matrix_tells h rows).gives (by rw [category]; rfl) (by rw [category]; rfl)
  case row =>
    obtain ⟨texts, -⟩ := phrases nofun nofun nofun
    refine (row_tells h texts).mono fun a gives => ?_
    rw [Site.Gives, category]
    exact ⟨gives.1, fun _ => gives.2⟩
  case ret => exact (ret_tells h).printed (by rw [category]; rfl)
  case brk => exact brk_tells.printed (by rw [category]; rfl)
  case all => exact (all_tells h).gives (by rw [category]; rfl) (by rw [category]; rfl)
  case last => exact (last_tells h).gives (by rw [category]; rfl) (by rw [category]; rfl)
  case int => exact (value_tells h (.inl category)).gives (by rw [category]; rfl) (by rw [category]; rfl)
  case float => exact (value_tells h (.inr category)).gives (by rw [category]; rfl) (by rw [category]; rfl)
  case imag => exact (imag_tells h category).gives (by rw [category]; rfl) (by rw [category]; rfl)
  case str => exact (string_tells h category).gives (by rw [category]; rfl) (by rw [category]; rfl)
  case var => exact (var_tells h category).gives (by rw [category]; rfl) (by rw [category]; rfl)
  all_goals obtain ⟨texts, -⟩ := phrases nofun nofun nofun
  case statement => exact (statement_tells h texts category).printed (by rw [category]; rfl)
  case assign => exact (assign_tells h texts category).printed (by rw [category]; rfl)
  case assigns => exact (assigns_tells h texts category).printed (by rw [category]; rfl)
  case params | returns =>
    refine (names_tells texts).mono fun a phrase => ?_
    rw [Site.Gives, category]
    exact ⟨phrase, nofun⟩
  all_goals refine Site.Tells.gives ?_ (by rw [category]; rfl) (by rw [category]; rfl)
  case get | set => exact subscript_tells h texts (by rw [category]; rfl)
  case add => exact add_tells texts
  case sub => exact sub_tells texts
  case mul => exact mul_tells texts
  case elMul => exact elMul_tells texts
  case rightDiv => exact rightDiv_tells texts
  case leftDiv => exact leftDiv_tells texts
  case elRightDiv => exact elRightDiv_tells texts
  case elLeftDiv => exact elLeftDiv_tells texts
  case pow | elPow => exact power_tells texts
  case range => exact range_tells h texts category
  case neg =>
    obtain ⟨o, single⟩ := operand rfl
    exact neg_tells texts single
  case not =>
    obtain ⟨o, single⟩ := operand rfl
    exact negation_tells texts single _
  case transpose =>
    obtain ⟨o, single⟩ := operand rfl
    exact transposed_tells texts single _
  case ctranspose =>
    obtain ⟨o, single⟩ := operand rfl
    exact conjugated_tells texts single _
  case paren =>
    obtain ⟨o, single⟩ := operand rfl
    exact paren_tells texts single
  all_goals first | exact comparison_tells texts rfl | exact logical_tells texts rfl

theorem untranslated_tells (inline : s.node.category.isInline)
    (other : s.node.category ≠ .row) : s.Tells I (s.Gives I) (untranslated s) := by
  refine .keep Site.Tells.report fun _ => ?_
  rw [Site.Gives, if_pos inline]
  exact ⟨h.label, fun row => absurd row other⟩

/-- Whatever rule a node gets, but that of a function, it gives a phrase, or lines that are;
a block gets none. -/
theorem select_tells (other : s.node.category ≠ .function) (block : s.node.category ≠ .block) :
    s.Tells I (s.Gives I) (select s.tree s.node s) := by
  unfold select
  cases chosen : (builtinOf? s.tree s.node).bind (ofBuiltin? s.node.category) with
  | some rule =>
    obtain ⟨b, found, eq⟩ := Option.bind_eq_some_iff.mp chosen
    exact ofBuiltin?_tells h found eq
  | none =>
    cases found : ofCategory? s.node.category with
    | some rule => exact ofCategory?_tells h other found
    | none =>
      have rest : s.node.category.isInline ∧ s.node.category ≠ .row := by
        cases category : s.node.category <;> rw [category] at found block <;>
          first | cases found; done | exact absurd rfl block | exact ⟨rfl, nofun⟩
      exact untranslated_tells h rest.1 rest.2

omit h in
/-- A range is a column. -/
theorem shape_of_select (category : s.node.category = .range) {o : Outcome}
    (ok : select s.tree s.node s = .ok o) : o.typing.datatype.shape = .colvec := by
  have none : (builtinOf? s.tree s.node).bind (ofBuiltin? s.node.category) = none := by
    rw [category]
    cases builtinOf? s.tree s.node <;> rfl
  rw [select, none, category] at ok
  exact range_shape ok

end

end Rule

end MatrixScript
