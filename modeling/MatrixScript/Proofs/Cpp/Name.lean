/-
# `Proofs.Cpp.Name` — names and numerals in C++ expressions

The name of a variable is read as an operand (`Cpp.group?_name`), and arguments can follow it
(`Cpp.isCallee_of_isName`): it has no scope of a library in front.  A numeral is an operand too
(`Cpp.group?_numeral`): the sign of an exponent belongs to the number, since a letter `e` stands in
front of it, and no number ends in that letter.  But a member can only follow where no number
ends, as behind a name or a parenthesis.
-/
import MatrixScript.Proofs.Cpp.Assembly
import MatrixScript.Proofs.Cpp.Selected

namespace MatrixScript.Cpp

variable {x : String}

namespace Scan

variable {done : List (Factor × Operator)} {signs p cs : List Char} {ps : List (List Char)}

/-- Letters go on with a name that has no scope yet. -/
theorem run_word (plain : ':' ∉ p) (word : ∀ c ∈ cs, Token.isWordRest c) :
    run ⟨done, ⟨signs, p :: ps⟩, .name⟩ cs = some ⟨done, ⟨signs, (cs.reverse ++ p) :: ps⟩, .name⟩ := by
  induction cs generalizing p with
  | nil => rfl
  | cons c cs ih =>
    obtain ⟨first, rest⟩ := List.forall_mem_cons.mp word
    have other : c ≠ '<' ∧ c ≠ ':' := by
      constructor <;> (rintro rfl; cases first)
    have step : Scan.step ⟨done, ⟨signs, p :: ps⟩, .name⟩ c
        = some ⟨done, ⟨signs, (c :: p) :: ps⟩, .name⟩ := by
      simp [Scan.step, more, first, other.1, put, Factor.put]
    rw [run, step, Option.bind_some, ih (by simp [plain, other.2.symm]) rest, List.reverse_cons,
      List.append_assoc]
    rfl

theorem run_name (name : isName x) :
    run {} x.toList = some ⟨[], ⟨[], [x.toList.reverse]⟩, .name⟩ := by
  obtain ⟨c, cs, letters, start, word⟩ := exists_cons_of_isName name
  rw [letters, List.all_cons, Bool.and_eq_true, List.all_eq_true] at word
  have other : c ≠ ' ' ∧ c ≠ '-' ∧ c ≠ '+' ∧ c ≠ '!' ∧ c ≠ ':' := by
    refine ⟨?_, ?_, ?_, ?_, ?_⟩ <;> (rintro rfl; cases start)
  have step : Scan.step {} c = some ⟨[], ⟨[], [[c]]⟩, .name⟩ := by
    show Scan.ahead {} c = _
    simp [ahead, other, start, begin, Factor.begin]
  rw [letters, run, step, Option.bind_some, run_word (by simp [other.2.2.2.2.symm]) word.2,
    List.reverse_cons]

/-- Letters, digits and points go on with a number. -/
theorem run_numeral (more : ∀ c ∈ cs, Token.isWordRest c || c == '.') :
    run ⟨done, ⟨signs, p :: ps⟩, .number⟩ cs
      = some ⟨done, ⟨signs, (cs.reverse ++ p) :: ps⟩, .number⟩ := by
  induction cs generalizing p with
  | nil => rfl
  | cons c cs ih =>
    obtain ⟨first, rest⟩ := List.forall_mem_cons.mp more
    have step : Scan.step ⟨done, ⟨signs, p :: ps⟩, .number⟩ c
        = some ⟨done, ⟨signs, (c :: p) :: ps⟩, .number⟩ := by
      simp [Scan.step, Scan.more, first, put, Factor.put]
    rw [run, step, Option.bind_some, ih rest, List.reverse_cons, List.append_assoc]
    rfl

/-- So does an exponent. -/
theorem run_exponent (whole : Token.exponentLength cs = cs.length) :
    run ⟨done, ⟨signs, p :: ps⟩, .number⟩ cs
      = some ⟨done, ⟨signs, (cs.reverse ++ p) :: ps⟩, .number⟩ := by
  cases cs with
  | nil => rfl
  | cons c rest =>
    obtain ⟨letter, sign, digits, rfl, signed, all⟩ := Token.exponent_chars whole
    have first : Scan.step ⟨done, ⟨signs, p :: ps⟩, .number⟩ c
        = some ⟨done, ⟨signs, (c :: p) :: ps⟩, .number⟩ := by
      rcases letter with rfl | rfl <;> rfl
    have follows : run ⟨done, ⟨signs, (c :: p) :: ps⟩, .number⟩ sign
        = some ⟨done, ⟨signs, (sign.reverse ++ c :: p) :: ps⟩, .number⟩ := by
      simp only [List.mem_cons, List.not_mem_nil, or_false] at signed
      rcases letter with rfl | rfl <;> rcases signed with rfl | rfl | rfl <;> rfl
    have last : run ⟨done, ⟨signs, (sign.reverse ++ c :: p) :: ps⟩, .number⟩ digits = some _ :=
      run_numeral fun d mem => by rw [isWordRest_of_isDigit (all d mem)]; rfl
    rw [run, first, Option.bind_some, run_append, follows, Option.bind_some, last]
    simp

end Scan

theorem isScoped_of_plain {f : Factor} {p : List Char} {ps : List (List Char)}
    (parts : f.parts = p :: ps) (plain : ':' ∉ p) : f.isScoped = false := by
  rw [Factor.isScoped, parts]
  refine Bool.eq_false_iff.mpr fun found => plain ?_
  obtain ⟨scope, mem, starts⟩ := List.any_eq_true.mp found
  have colon : ':' ∈ scope.toList := by
    simp only [List.mem_cons, List.not_mem_nil, or_false] at mem
    rcases mem with rfl | rfl | rfl <;> decide
  exact List.mem_reverse.mp ((List.isPrefixOf_iff_prefix.mp starts).subset colon)

theorem scans_name (name : isName x) : Scans x ⟨[], ⟨[], [x.toList.reverse]⟩, .name⟩ := by
  refine ⟨Scan.run_name name, ?_⟩
  obtain ⟨-, -, -, -, word⟩ := exists_cons_of_isName name
  have plain : ':' ∉ x.toList.reverse := fun mem =>
    absurd (List.all_eq_true.mp word ':' (List.mem_reverse.mp mem)) (by decide)
  rw [Scan.complete, isScoped_of_plain rfl plain]
  rfl

/-- A name is an operand. -/
theorem group?_name (name : isName x) : group? x = some (.operand [x]) := by
  rw [(scans_name name).group?]
  simp [Scan.grouping, Scan.closed, Scan.joined, Factor.grouping]

/-- A numeral that is not imaginary is an operand. -/
theorem group?_numeral {s : String} {kind : Token.NumberKind}
    (number : Token.numberAt? s.toList = some (kind, s.toList.length)) (real : kind ≠ .imag) :
    group? s = some (.operand [s]) := by
  obtain ⟨d, last, ends⟩ := Token.last_of_numberAt? number real
  obtain ⟨⟨point, m⟩, mantissa⟩ : ∃ found, Token.mantissaAt? s.toList = some found := by
    cases mantissa : Token.mantissaAt? s.toList with
    | none => simp [Token.numberAt?, mantissa] at number
    | some found => exact ⟨found, rfl⟩
  have length := (Token.kind_of_numberAt? number mantissa real).1
  obtain ⟨c, cs, letters⟩ : ∃ c cs, s.toList = c :: cs := by
    cases letters : s.toList with
    | nil => rw [letters] at last; cases last
    | cons c cs => exact ⟨c, cs, rfl⟩
  have run : Scan.run {} s.toList = some ⟨[], ⟨[], [s.toList.reverse]⟩, .number⟩ := by
    have start : c.isDigit ∨ c = '.' := Token.numberAt?_head (letters ▸ number)
    have first : Scan.step {} c = some ⟨[], ⟨[], [[c]]⟩, .number⟩ := by
      have other : c ≠ ' ' ∧ c ≠ '-' ∧ c ≠ '+' ∧ c ≠ '!' := by
        refine ⟨?_, ?_, ?_, ?_⟩ <;> (rintro rfl; revert start; decide)
      show Scan.ahead {} c = _
      simp [Scan.ahead, other, start, Token.isWordStart_of_number start, Scan.begin, Factor.begin]
    have plain : ∀ x ∈ s.toList.take m, Token.isWordRest x || x == '.' := List.all_eq_true.mp
      (Token.all_take_mantissa (fun digit => by rw [isWordRest_of_isDigit digit]; rfl) rfl mantissa)
    have exponent : Token.exponentLength (s.toList.drop m) = (s.toList.drop m).length := by
      rw [List.length_drop]
      omega
    rw [letters] at plain exponent ⊢
    cases m with
    | zero =>
      -- a mantissa is not empty, and an exponent does not start as a number does
      obtain ⟨letter, -⟩ := Token.exponent_chars exponent
      exact absurd start (by rcases letter with rfl | rfl <;> decide)
    | succ k =>
      rw [List.take_succ_cons] at plain
      rw [List.drop_succ_cons] at exponent
      have rest := (List.forall_mem_cons.mp plain).2
      rw [Scan.run, first, Option.bind_some, ← List.take_append_drop k cs, Scan.run_append,
        Scan.run_numeral rest, Option.bind_some, Scan.run_exponent exponent, ← List.append_assoc,
        ← List.reverse_append, List.take_append_drop, List.reverse_cons]
  have complete : Scan.complete ⟨[], ⟨[], [s.toList.reverse]⟩, .number⟩ := by
    simp only [Scan.complete, Factor.takesSign, List.head?_cons, Option.any_some, List.head?_reverse, last]
    rcases ends with digit | rfl
    · have other : d ≠ 'e' ∧ d ≠ 'E' := by
        constructor <;> (rintro rfl; cases digit)
      simp [other]
    · rfl
  rw [Scans.group? ⟨run, complete⟩]
  simp [Scan.grouping, Scan.closed, Scan.joined, Factor.grouping]

/-- Digits are an operand. -/
theorem group?_digits (digits : Program.Digits x) : group? x = some (.operand [x]) :=
  group?_numeral (Token.numberAt?_digits digits.1 digits.2) nofun

theorem endsInNumber_name (name : isName x) : endsInNumber x = false := by
  rw [endsInNumber, Scan.run_name name]
  rfl

/-- A closing parenthesis stands within delimiters, or ends them. -/
theorem Scan.step_close {s t : Scan} (step : s.step ')' = some t) : t.stage ≠ .number := by
  have ahead : ∀ s : Scan, s.ahead ')' = none := fun _ => rfl
  have behind : ∀ s : Scan, s.behind ')' = none := by
    intro s
    unfold Scan.behind
    cases s.complete <;> rfl
  obtain ⟨done, factor, stage⟩ := s
  unfold Scan.step at step
  cases stage with
  | inside spot =>
    obtain ⟨spot', -, rfl⟩ := Option.map_eq_some_iff.mp step
    dsimp only
    split <;> nofun
  | mark d =>
    have single : Operator.double? d ')' = none := by
      unfold Operator.double?
      split <;> first | rfl | contradiction
    dsimp only [Scan.marked] at step
    rw [single] at step
    cases one : Operator.single? d <;> simp [one, ahead] at step
  | sign d => simp [ahead] at step
  | types => cases step
  | ahead => cases step
  | behind => exact absurd step (by simp [behind])
  | name | number | member => exact absurd step (by simp [more, behind, Token.isWordRest])

theorem endsInNumber_close (text : String) : endsInNumber (text ++ ")") = false := by
  rw [endsInNumber, String.toList_append, Scan.run_append]
  cases Scan.run {} text.toList with
  | none => rfl
  | some s =>
    rw [Option.bind_some, show ")".toList = [')'] from rfl, Scan.run]
    cases step : s.step ')' with
    | none => rfl
    | some t => simpa [Scan.run] using Scan.step_close step

/-- Arguments can follow a name. -/
theorem isCallee_of_isName (name : isName x) : isCallee x := by
  rw [isCallee, Scan.run_name name]
  simp

namespace Assembly

theorem level_name (name : isName x) : (whole x).level = 9 := by
  rw [level, group?_name name]
  rfl

theorem fits_name (name : isName x) : (whole x).Fits := by
  rw [Fits, group?_name name]
  rfl

section Numerals

variable {s : String} {kind : Token.NumberKind}
  (number : Token.numberAt? s.toList = some (kind, s.toList.length)) (real : kind ≠ .imag)
include number real

theorem level_numeral : (whole s).level = 9 := by
  rw [level, group?_numeral number real]
  rfl

theorem fits_numeral : (whole s).Fits := by
  rw [Fits, group?_numeral number real]
  rfl

end Numerals

end Assembly

end MatrixScript.Cpp
