/-
# `Proofs.Cpp.Delimited` — what goes on behind an operand

A text in which operators are grouped is one item of a list (`Scans.single`), because
scanning passes over what stands inside of delimiters just as the reading of items does.
So items in delimiters are one part of an operand: a group of its own, the arguments of a
function (`group?_call`), or arguments behind an operand (`group?_applied_iff`).  A member
is another part (`group?_member_iff`).  What goes on behind a text takes its last operand,
so it takes all of the text exactly if that is one operand.
-/
import MatrixScript.Proofs.Cpp.Grouped

namespace MatrixScript.Cpp

variable {text : String} {s t : Scan} {g : Grouping} {c : Char}

/-! ## Expressions as items -/

namespace Scan

/-- Literals and delimiters that are open. -/
def spot (s : Scan) : Spot :=
  match s.stage with
  | .inside spot => spot
  | _ => .start

/-- Delimiters and commas apart, a character of an expression leaves everything closed. -/
theorem spot_step_mark (mark : isMark c) : Spot.start.step c = some .start := by
  have known := isMark_cases mark
  simp only [List.mem_cons, List.not_mem_nil, or_false] at known
  rcases known with rfl | rfl | rfl | rfl | rfl | rfl | rfl | rfl | rfl | rfl | rfl <;> rfl

theorem spot_ahead (h : s.ahead c = some t) : Spot.start.step c = some t.spot := by
  unfold ahead at h
  split_ifs at h with blank sign word number opens
  · cases h
    subst blank
    rfl
  · cases h
    rcases sign with rfl | rfl | rfl <;> rfl
  · cases h
    have rest : Token.isWordRest c := by
      unfold Token.isWordStart at word
      unfold Token.isWordRest Char.isAlphanum
      grind
    exact Spot.step_word rest
  · cases h
    rcases number with digit | rfl
    · exact Spot.step_word (by simp [Token.isWordRest, Char.isAlphanum, digit])
    · rfl
  · obtain ⟨spot, step, rfl⟩ := Option.map_eq_some_iff.mp h
    exact step

theorem spot_behind (h : s.behind c = some t) : Spot.start.step c = some t.spot := by
  unfold behind at h
  split_ifs at h with opens dot complete blank mark
  · obtain ⟨spot, step, rfl⟩ := Option.map_eq_some_iff.mp h
    exact step
  · cases h
    subst dot
    rfl
  · cases h
    subst blank
    rfl
  · cases h
    exact spot_step_mark mark

theorem spot_more {here : Bool} (closed : s.spot = .start)
    (plain : here → Spot.start.step c = some .start) (h : s.more here c = some t) :
    Spot.start.step c = some t.spot := by
  unfold more at h
  split at h
  case isTrue go =>
    cases h
    rw [plain go]
    exact congrArg some closed.symm
  case isFalse => exact spot_behind h

theorem spot_marked {d : Char} (h : s.marked d c = some t) : Spot.start.step c = some t.spot := by
  unfold marked at h
  split at h
  case h_1 op double =>
    cases h
    unfold Operator.double? at double
    split at double <;> first | rfl | cases double
  case h_2 =>
    split at h
    · split at h
      · cases h
      · exact spot_ahead h
    · cases h

/-- Scanning and the reading of items agree about what is open. -/
theorem spot_step (h : s.step c = some t) : s.spot.step c = some t.spot := by
  have colon : Spot.start.step ':' = some .start := rfl
  have word : Token.isWordRest c → Spot.start.step c = some .start := Spot.step_word
  have spot : s.spot = match s.stage with | .inside spot => spot | _ => .start := rfl
  unfold step at h
  split at h
  case h_1 stage =>
    rw [spot, stage]
    exact spot_ahead h
  case h_2 stage =>
    rw [spot, stage]
    split at h
    · cases h
    · exact spot_ahead h
  case h_3 stage =>
    have closed : s.spot = .start := by rw [spot, stage]
    rw [closed]
    split at h
    case isTrue opens =>
      cases h
      rw [opens.1]
      rfl
    case isFalse =>
      refine spot_more closed ?_ h
      intro here
      rcases (Bool.or_eq_true _ _).mp here with rest | eq
      · exact word rest
      · rw [eq_of_beq eq]
        rfl
  case h_4 stage =>
    have closed : s.spot = .start := by rw [spot, stage]
    rw [closed]
    refine spot_more closed ?_ h
    intro here
    rcases (Bool.or_eq_true _ _).mp here with here | here
    · rcases (Bool.or_eq_true _ _).mp here with rest | eq
      · exact word rest
      · rw [eq_of_beq eq]
        rfl
    · obtain ⟨-, here⟩ := (Bool.and_eq_true _ _).mp here
      rcases (Bool.or_eq_true _ _).mp here with eq | eq
      · rw [eq_of_beq eq]
        rfl
      · rw [eq_of_beq eq]
        rfl
  case h_5 stage =>
    have closed : s.spot = .start := by rw [spot, stage]
    rw [closed]
    split at h
    case isTrue closes =>
      cases h
      rw [closes]
      rfl
    case isFalse =>
      split at h
      case isTrue rest =>
        cases h
        rw [word rest]
        exact congrArg some closed.symm
      case isFalse => cases h
  case h_6 stage =>
    have closed : s.spot = .start := by rw [spot, stage]
    rw [closed]
    exact spot_more closed word h
  case h_7 stage =>
    rw [spot, stage]
    obtain ⟨next, step, rfl⟩ := Option.map_eq_some_iff.mp h
    refine step.trans (congrArg some ?_)
    unfold Scan.spot
    dsimp only
    by_cases done : next = .start
    · rw [if_pos done, done]
    · rw [if_neg done]
  case h_8 stage =>
    rw [spot, stage]
    exact spot_behind h
  case h_9 stage =>
    rw [spot, stage]
    exact spot_marked h

theorem spot_run {cs : List Char} (h : s.run cs = some t) : s.spot.run cs = some t.spot := by
  induction cs generalizing s with
  | nil =>
    cases h
    rfl
  | cons c cs ih =>
    obtain ⟨u, first, rest⟩ := Option.bind_eq_some_iff.mp h
    rw [Spot.run, spot_step first]
    exact ih rest

end Scan

/-- An expression is one item. -/
theorem Scans.single (h : Scans text s) : Single text := by
  have closed : s.spot = .start := by
    have complete := h.complete
    unfold Scan.spot
    split
    case h_1 inside =>
      unfold Scan.complete at complete
      rw [inside] at complete
      cases complete
    case h_2 => rfl
  have run := Scan.spot_run h.run
  rw [closed] at run
  exact run

/-- An expression is more than blanks. -/
theorem Scans.solid (h : Scans text s) : Solid text := by
  by_contra none
  have blank : ∀ c ∈ text.toList, c = ' ' := by
    intro c mem
    by_contra dark
    exact none ⟨c, mem, dark⟩
  have stays : ∀ cs : List Char, (∀ c ∈ cs, c = ' ') → Scan.run {} cs = some {} := by
    intro cs blank
    induction cs with
    | nil => rfl
    | cons c cs ih =>
      obtain ⟨rfl, rest⟩ := List.forall_mem_cons.mp blank
      exact ih rest
  have same : s = {} := Option.some.inj (h.run.symm.trans (stays _ blank))
  have complete := h.complete
  rw [same] at complete
  cases complete

/-! ## Items in delimiters -/

/-- Arguments of a call. -/
def arguments (as : List String) : String := "(" ++ Text.joined ", " as ++ ")"

theorem call_eq (f : String) (as : List String) : call f as = f ++ arguments as := by
  simp only [call, arguments, String.append_assoc]

namespace Scan

/-- One more part of the operand, which is complete. -/
def extended (s : Scan) (part : List Char) : Scan :=
  { s with factor := { s.factor with parts := part.reverse :: s.factor.parts }, stage := .behind }

variable {done : List (Factor × Operator)} {signs p outer cs : List Char} {ps : List (List Char)}
  {as : List String}

/-- An item is passed over as a part of what stands in the delimiters around it. -/
theorem run_inside {a b : Spot} (h : a.run cs = some b) (some : outer ≠ []) :
    run ⟨done, ⟨signs, p :: ps⟩, .inside ⟨a.quoting, a.closers ++ outer⟩⟩ cs
      = .some ⟨done, ⟨signs, (cs.reverse ++ p) :: ps⟩, .inside ⟨b.quoting, b.closers ++ outer⟩⟩ := by
  induction cs generalizing a p with
  | nil =>
    cases h
    rfl
  | cons c cs ih =>
    obtain ⟨next, first, rest⟩ := Option.bind_eq_some_iff.mp h
    have inner : (⟨next.quoting, next.closers ++ outer⟩ : Spot) ≠ .start := fun start =>
      some (List.append_eq_nil_iff.mp (congrArg Spot.closers start)).2
    have step : Scan.step ⟨done, ⟨signs, p :: ps⟩, .inside ⟨a.quoting, a.closers ++ outer⟩⟩ c
        = .some ⟨done, ⟨signs, (c :: p) :: ps⟩, .inside ⟨next.quoting, next.closers ++ outer⟩⟩ := by
      unfold Scan.step
      dsimp only
      rw [Spot.step_frame first outer, Option.map_some, if_neg inner]
      rfl
    rw [run, step, Option.bind_some, ih rest, List.reverse_cons, List.append_assoc]
    rfl

theorem run_items (single : ∀ a ∈ as, Single a) (some : outer ≠ []) :
    run ⟨done, ⟨signs, p :: ps⟩, .inside ⟨.outside, outer⟩⟩ (Text.joined ", " as).toList
      = .some ⟨done, ⟨signs, ((Text.joined ", " as).toList.reverse ++ p) :: ps⟩,
          .inside ⟨.outside, outer⟩⟩ := by
  induction as generalizing p with
  | nil => rfl
  | cons a as ih =>
    obtain ⟨first, rest⟩ := List.forall_mem_cons.mp single
    have item : run ⟨done, ⟨signs, p :: ps⟩, .inside ⟨.outside, outer⟩⟩ a.toList
        = .some ⟨done, ⟨signs, (a.toList.reverse ++ p) :: ps⟩, .inside ⟨.outside, outer⟩⟩ :=
      run_inside first some
    cases as with
    | nil => exact item
    | cons b as =>
      have comma : run ⟨done, ⟨signs, (a.toList.reverse ++ p) :: ps⟩, .inside ⟨.outside, outer⟩⟩
            (", ".toList)
          = .some ⟨done, ⟨signs, (' ' :: ',' :: (a.toList.reverse ++ p)) :: ps⟩,
              .inside ⟨.outside, outer⟩⟩ := by
        obtain ⟨d, outer, rfl⟩ := List.exists_cons_of_ne_nil some
        rfl
      have letters : (Text.joined ", " (a :: b :: as)).toList
          = a.toList ++ (", ".toList ++ (Text.joined ", " (b :: as)).toList) := by
        rw [Text.joined_cons, String.toList_append, String.toList_append, List.append_assoc]
      have spelled : (Text.joined ", " (b :: as)).toList.reverse
            ++ (' ' :: ',' :: (a.toList.reverse ++ p))
          = (Text.joined ", " (a :: b :: as)).toList.reverse ++ p := by
        rw [letters]
        simp
      rw [← spelled, letters, run_append, item, Option.bind_some, run_append, comma,
        Option.bind_some]
      exact ih rest

/-- Items in delimiters are one more part of an operand. -/
theorem run_group {o d : Char} (pair : closer? o = some d) (single : ∀ a ∈ as, Single a)
    (s : Scan) :
    ((Spot.start.step o).map fun spot => s.begin o (.inside spot)).bind
        (·.run ((Text.joined ", " as).toList ++ [d]))
      = some (s.extended (o :: ((Text.joined ", " as).toList ++ [d]))) := by
  obtain ⟨opens, closes⟩ :
      Spot.start.step o = some ⟨.outside, [d]⟩ ∧ Spot.step ⟨.outside, [d]⟩ d = some .start := by
    unfold closer? at pair
    split at pair <;> cases pair <;> exact ⟨rfl, rfl⟩
  have items : run ⟨s.done, ⟨s.factor.signs, [o] :: s.factor.parts⟩, .inside ⟨.outside, [d]⟩⟩
        (Text.joined ", " as).toList
      = some ⟨s.done, ⟨s.factor.signs, ((Text.joined ", " as).toList.reverse ++ [o]) :: s.factor.parts⟩,
          .inside ⟨.outside, [d]⟩⟩ := run_items single (List.cons_ne_nil d [])
  have inside : s.begin o (.inside ⟨.outside, [d]⟩)
      = ⟨s.done, ⟨s.factor.signs, [o] :: s.factor.parts⟩, .inside ⟨.outside, [d]⟩⟩ := rfl
  rw [opens, Option.map_some, Option.bind_some, inside, run_append, items, Option.bind_some, run]
  unfold Scan.step
  dsimp only
  rw [closes, Option.map_some, if_pos rfl]
  simp [Scan.put, Factor.put, extended, run]

/-- Behind an operand that is complete, arguments are one more part. -/
theorem run_arguments (complete : s.complete) (single : ∀ a ∈ as, Single a) :
    s.run (arguments as).toList = some (s.extended (arguments as).toList) := by
  have letters : (arguments as).toList = '(' :: ((Text.joined ", " as).toList ++ [')']) := by
    simp [arguments]
  have opens : s.step '(' = (Spot.start.step '(').map fun spot => s.begin '(' (.inside spot) := by
    rw [step_of_complete complete rfl (by decide) (by decide), behind, if_pos (.inl rfl)]
  rw [letters, run, opens]
  exact run_group rfl single s

theorem parts_of_grouping {parts : List String} (h : s.grouping = .operand parts) :
    s.done = [] ∧ s.factor.signs = []
      ∧ parts = s.factor.parts.reverse.map fun p => String.ofList p.reverse := by
  have tight : 8 ≤ s.grouping.level := by
    rw [h]
    exact Nat.le_succ 8
  obtain ⟨none, same⟩ := grouping_of_tight tight
  rw [h] at same
  obtain ⟨done, ⟨signs, ps⟩, stage⟩ := s
  cases signs with
  | cons c signs => cases same
  | nil => exact ⟨none, rfl, Grouping.operand.inj same⟩

theorem length_parts {parts : List String} (h : s.grouping = .operand parts) :
    s.factor.parts.length = parts.length := by
  rw [(parts_of_grouping h).2.2, List.length_map, List.length_reverse]

theorem grouping_extended {parts : List String} (h : s.grouping = .operand parts)
    (part : List Char) :
    (s.extended part).grouping = .operand (parts ++ [String.ofList part]) := by
  obtain ⟨none, unsigned, rfl⟩ := parts_of_grouping h
  simp [grouping, none, closed, joined, extended, Factor.grouping, unsigned]

end Scan

/-! ## Groups and arguments -/

variable {as parts : List String} {f name : String}

/-- Items in delimiters are an operand. -/
theorem group?_group {o d : Char} (pair : closer? o = some d) (single : ∀ a ∈ as, Single a) :
    group? (String.ofList [o] ++ Text.joined ", " as ++ String.ofList [d])
      = some (.operand [String.ofList [o] ++ Text.joined ", " as ++ String.ofList [d]]) := by
  have letters : (String.ofList [o] ++ Text.joined ", " as ++ String.ofList [d]).toList
      = o :: ((Text.joined ", " as).toList ++ [d]) := by simp
  have opens : Scan.step {} o
      = (Spot.start.step o).map fun spot => Scan.begin {} o (.inside spot) := by
    unfold closer? at pair
    split at pair <;> first | rfl | cases pair
  have scans : Scans (String.ofList [o] ++ Text.joined ", " as ++ String.ofList [d])
      (Scan.extended {} (o :: ((Text.joined ", " as).toList ++ [d]))) := by
    refine ⟨?_, rfl⟩
    rw [letters, Scan.run, opens]
    exact Scan.run_group pair single {}
  rw [scans.group?, ← letters]
  show some (Grouping.operand [String.ofList (List.reverse (List.reverse _))]) = _
  rw [List.reverse_reverse, String.ofList_toList]

/-- The text names a function, or a template with its types. -/
def isCallee (f : String) : Bool :=
  match Scan.run {} f.toList with
  | some s =>
    s == ⟨[], ⟨[], [f.toList.reverse]⟩, .name⟩ || s == ⟨[], ⟨[], [f.toList.reverse]⟩, .behind⟩
  | none => false

/-- A call is an operand. -/
theorem group?_call (callee : isCallee f) (single : ∀ a ∈ as, Single a) :
    group? (call f as) = some (.operand [f, arguments as]) := by
  obtain ⟨s, run, factor, opens⟩ : ∃ s, Scan.run {} f.toList = some s
      ∧ s.extended (arguments as).toList = ⟨[], ⟨[], [(arguments as).toList.reverse, f.toList.reverse]⟩, .behind⟩
      ∧ s.step '(' = (Spot.start.step '(').map fun spot => s.begin '(' (.inside spot) := by
    unfold isCallee at callee
    split at callee
    case h_2 => cases callee
    case h_1 s run =>
      rcases (Bool.or_eq_true _ _).mp callee with eq | eq
      · rw [eq_of_beq eq] at run
        exact ⟨_, run, rfl, rfl⟩
      · rw [eq_of_beq eq] at run
        exact ⟨_, run, rfl, rfl⟩
  have letters : (arguments as).toList = '(' :: ((Text.joined ", " as).toList ++ [')']) := by
    simp [arguments]
  have scans : Scans (call f as) (s.extended (arguments as).toList) := by
    refine ⟨?_, rfl⟩
    rw [call_eq, String.toList_append, Scan.run_append, run, Option.bind_some, letters, Scan.run, opens]
    exact Scan.run_group rfl single s
  rw [scans.group?, factor]
  simp [Scan.grouping, Scan.closed, Scan.joined, Factor.grouping]

/-- Arguments behind an operand are another part of it. -/
theorem group?_applied (h : group? text = some (.operand parts)) (single : ∀ a ∈ as, Single a) :
    group? (text ++ arguments as) = some (.operand (parts ++ [arguments as])) := by
  obtain ⟨s, scans, same⟩ := group?_eq_some_iff.mp h
  refine group?_eq_some_iff.mpr ⟨s.extended (arguments as).toList, ⟨?_, rfl⟩, ?_⟩
  · rw [String.toList_append, Scan.run_append, scans.run, Option.bind_some]
    exact Scan.run_arguments scans.complete single
  · rw [Scan.grouping_extended same, String.ofList_toList]

/-! ## Members -/

namespace Scan

/-- Letters and points go on with a number. -/
theorem run_number {cs : List Char} (more : ∀ c ∈ cs, Token.isWordRest c || c == '.')
    (number : s.stage = .number) :
    ∃ t, s.run cs = some t ∧ t.factor.parts.length = s.factor.parts.length := by
  induction cs generalizing s with
  | nil => exact ⟨s, rfl, rfl⟩
  | cons c cs ih =>
    obtain ⟨first, rest⟩ := List.forall_mem_cons.mp more
    have step : s.step c = some (s.put c) := by
      unfold Scan.step
      rw [number]
      simp [Scan.more, first]
    have length : (s.put c).factor.parts.length = s.factor.parts.length := by
      obtain ⟨done, ⟨signs, parts⟩, stage⟩ := s
      cases parts with
      | nil => rfl
      | cons p ps => rfl
    obtain ⟨t, run', same⟩ := ih (s := s.put c) rest number
    refine ⟨t, ?_, same.trans length⟩
    rw [run, step]
    exact run'

/-- Letters go on with the name of a member. -/
theorem run_member {done : List (Factor × Operator)} {signs p cs : List Char}
    {ps : List (List Char)}
    (word : ∀ c ∈ cs, Token.isWordRest c) :
    run ⟨done, ⟨signs, p :: ps⟩, .member⟩ cs
      = some ⟨done, ⟨signs, (cs.reverse ++ p) :: ps⟩, .member⟩ := by
  induction cs generalizing p with
  | nil => rfl
  | cons c cs ih =>
    obtain ⟨first, rest⟩ := List.forall_mem_cons.mp word
    have step : Scan.step ⟨done, ⟨signs, p :: ps⟩, .member⟩ c
        = some ⟨done, ⟨signs, (c :: p) :: ps⟩, .member⟩ := by
      simp [Scan.step, more, first, put, Factor.put]
    rw [run, step, Option.bind_some, ih rest, List.reverse_cons, List.append_assoc]
    rfl

/-- A point opens a member behind anything but a number. -/
theorem step_point (complete : s.complete) (other : s.stage ≠ .number) :
    s.step '.' = some (s.begin '.' .member) := by
  obtain ⟨done, factor, stage⟩ := s
  unfold Scan.complete at complete
  unfold Scan.step
  cases stage with
  | name => simp [more, behind, show Token.isWordRest '.' = false from rfl]
  | number => exact absurd rfl other
  | member => simp [more, behind, show Token.isWordRest '.' = false from rfl]
  | behind => rfl
  | _ => cases complete

end Scan

/-- Reading ends in a number, which a point would go on with. -/
def endsInNumber (text : String) : Bool :=
  (Scan.run {} text.toList).any (·.stage == .number)

/-- A member of an operand is another part of it where no number ends. -/
theorem group?_member_iff (h : group? text = some (.operand parts)) (some : name ≠ "")
    (word : ∀ c ∈ name.toList, Token.isWordRest c) :
    group? (text ++ "." ++ name) = .some (.operand (parts ++ ["." ++ name]))
      ↔ endsInNumber text = false := by
  obtain ⟨s, scans, same⟩ := group?_eq_some_iff.mp h
  have letters : (text ++ "." ++ name).toList = text.toList ++ '.' :: name.toList := by simp
  have ends : endsInNumber text = (s.stage == .number) := by
    rw [endsInNumber, scans.run, Option.any_some]
  rw [ends, beq_eq_false_iff_ne]
  constructor
  · intro member number
    have more : ∀ c ∈ '.' :: name.toList, Token.isWordRest c || c == '.' := by
      refine List.forall_mem_cons.mpr ⟨rfl, fun c mem => ?_⟩
      rw [word c mem]
      rfl
    obtain ⟨t, run, length⟩ := Scan.run_number more number
    obtain ⟨u, scans', same'⟩ := group?_eq_some_iff.mp member
    have run' := scans'.run
    rw [letters, Scan.run_append, scans.run, Option.bind_some, run] at run'
    cases run'
    have few := Scan.length_parts same'
    rw [length, Scan.length_parts same, List.length_append] at few
    exact absurd few (Nat.ne_of_lt (Nat.lt_succ_self _))
  · intro other
    refine group?_eq_some_iff.mpr
      ⟨{ s.extended ('.' :: name.toList) with stage := .member }, ⟨?_, ?_⟩, ?_⟩
    · rw [letters, Scan.run_append, scans.run, Option.bind_some, Scan.run,
        Scan.step_point scans.complete other, Option.bind_some]
      show Scan.run ⟨s.done, ⟨s.factor.signs, ['.'] :: s.factor.parts⟩, .member⟩ _ = _
      rw [Scan.run_member word, Scan.extended, List.reverse_cons]
    · have filled : name.toList ≠ [] := fun none => some (String.toList_injective none)
      simp [Scan.complete, Scan.extended, filled]
    · have grouped := Scan.grouping_extended same ('.' :: name.toList)
      have point : "." ++ name = String.ofList ('.' :: name.toList) := by
        rw [← String.ofList_toList (s := "." ++ name), String.toList_append]
        rfl
      rw [point]
      exact grouped

end MatrixScript.Cpp
