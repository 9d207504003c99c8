/-
# `Proofs.Cpp.Assembly` — expressions that are put together from texts

An assembly says how a text is put together: which texts are pasted whole, and which
operators, delimiters, arguments and members stand around them.  `spelled` is the text.
It is read as it is put together (`Read`) if everywhere in it the parts are operands of
what stands around them, where reading knows nothing of the assembly.  That depends on how
tight each part is for its place (`Fits`): `read_iff_fits`.
-/
import MatrixScript.Proofs.Cpp.Delimited

namespace MatrixScript.Cpp

/-- What arguments can follow: the name of a function, or of a template with its types. -/
structure Callee where
  name : String
  callable : isCallee name

/-- The name of a member. -/
structure Member where
  name : String
  filled : name ≠ ""
  word : name.toList.all Token.isWordRest

/-- The text is an expression whose operators are at least as tight as this. -/
def Tight (ℓ : Nat) (text : String) : Prop := ∃ g, group? text = some g ∧ ℓ ≤ g.level

/-- How a text is put together. -/
inductive Assembly where
  /-- a text that is pasted -/
  | whole (text : String)
  | parens (e : Assembly)
  | braces (items : List Assembly)
  | call (f : Callee) (items : List Assembly)
  /-- arguments behind an operand -/
  | applied (e : Assembly) (items : List Assembly)
  | member (e : Assembly) (m : Member)
  | negated (e : Assembly)
  /-- `spaced` says that a blank stands on both sides of the operator -/
  | binary (op : Operator) (spaced : Bool) (left right : Assembly)

namespace Assembly

/-! ## Texts -/

mutual

/-- The text. -/
def spelled : Assembly → String
  | whole text => text
  | parens e => "(" ++ e.spelled ++ ")"
  | braces items => "\x7b" ++ Text.joined ", " (spelledAll items) ++ "\x7d"
  | call f items => Cpp.call f.name (spelledAll items)
  | applied e items => e.spelled ++ arguments (spelledAll items)
  | member e m => e.spelled ++ "." ++ m.name
  | negated e => "-" ++ e.spelled
  | binary op false left right => left.spelled ++ op.symbol ++ right.spelled
  | binary op true left right => left.spelled ++ " " ++ op.symbol ++ " " ++ right.spelled

/-- The texts. -/
def spelledAll : List Assembly → List String
  | [] => []
  | e :: es => e.spelled :: spelledAll es

end

mutual

/-- The texts that are pasted, from left to right. -/
def pasted : Assembly → List String
  | whole text => [text]
  | parens e => e.pasted
  | braces items => pastedAll items
  | call _ items => pastedAll items
  | applied e items => e.pasted ++ pastedAll items
  | member e _ => e.pasted
  | negated e => e.pasted
  | binary _ _ left right => left.pasted ++ right.pasted

def pastedAll : List Assembly → List String
  | [] => []
  | e :: es => e.pasted ++ pastedAll es

end

/-- How tight what stands outermost is. -/
def level : Assembly → Nat
  | whole text => ((group? text).map Grouping.level).getD 0
  | parens _ | braces _ | call _ _ | applied _ _ | member _ _ => 9
  | negated _ => 8
  | binary op _ _ _ => op.level

/-! ## Reading -/

mutual

/-- Every part is read as an operand of what stands around it. -/
def Read : Assembly → Prop
  | whole text => (group? text).isSome
  | parens e => e.Read ∧ group? (parens e).spelled = some (.operand [(parens e).spelled])
  | braces items =>
      ReadAll items ∧ items? (Text.joined ", " (spelledAll items)).toList = some (spelledAll items)
        ∧ group? (braces items).spelled = some (.operand [(braces items).spelled])
  | call f items =>
      ReadAll items ∧ items? (Text.joined ", " (spelledAll items)).toList = some (spelledAll items)
        ∧ group? (call f items).spelled = some (.operand [f.name, arguments (spelledAll items)])
  | applied e items =>
      e.Read ∧ ReadAll items
        ∧ items? (Text.joined ", " (spelledAll items)).toList = some (spelledAll items)
        ∧ ∃ parts, group? e.spelled = some (.operand parts)
          ∧ group? (applied e items).spelled = some (.operand (parts ++ [arguments (spelledAll items)]))
  | member e m =>
      e.Read ∧ ∃ parts, group? e.spelled = some (.operand parts)
        ∧ group? (member e m).spelled = some (.operand (parts ++ ["." ++ m.name]))
  | negated e =>
      e.Read ∧ ∃ g, group? e.spelled = some g ∧ group? (negated e).spelled = some (.sign '-' g)
  | binary op spaced left right =>
      left.Read ∧ right.Read ∧ ∃ l r, group? left.spelled = some l ∧ group? right.spelled = some r
        ∧ group? (binary op spaced left right).spelled = some (.binary op l r)

def ReadAll : List Assembly → Prop
  | [] => True
  | e :: es => e.Read ∧ ReadAll es

end

mutual

/-- Every part is tight enough for its place: an operand where something goes on behind it,
and in front of a minus or between operators no looser than what stands beside it. -/
def Fits : Assembly → Prop
  | whole text => (group? text).isSome
  | parens e => e.Fits
  | braces items => FitsAll items
  | call _ items => FitsAll items
  | applied e items => e.level = 9 ∧ e.Fits ∧ FitsAll items
  | member e _ => e.level = 9 ∧ endsInNumber e.spelled = false ∧ e.Fits
  | negated e => 8 ≤ e.level ∧ Operator.sub.fusesWith e.spelled = false ∧ e.Fits
  | binary op spaced left right =>
      op.level ≤ left.level ∧ op.level < right.level
        ∧ (spaced = false → op.fusesWith right.spelled = false) ∧ left.Fits ∧ right.Fits

def FitsAll : List Assembly → Prop
  | [] => True
  | e :: es => e.Fits ∧ FitsAll es

end

/-! ## Reading what fits -/

variable {e : Assembly}

attribute [local simp] spelled Read

/-- What is read as it is put together is as tight as what stands outermost. -/
theorem Read.group? (h : e.Read) : ∃ g, Cpp.group? e.spelled = some g ∧ g.level = e.level := by
  cases e with
  | whole text =>
    obtain ⟨g, eq⟩ := Option.isSome_iff_exists.mp (by simpa using h)
    exact ⟨g, eq, by simp [level, eq]⟩
  | parens e =>
    rw [Read] at h
    exact ⟨_, h.2, rfl⟩
  | braces items =>
    rw [Read] at h
    exact ⟨_, h.2.2, rfl⟩
  | call f items =>
    rw [Read] at h
    exact ⟨_, h.2.2, rfl⟩
  | applied e items =>
    rw [Read] at h
    obtain ⟨-, -, -, parts, -, eq⟩ := h
    exact ⟨_, eq, rfl⟩
  | member e m =>
    rw [Read] at h
    obtain ⟨-, parts, -, eq⟩ := h
    exact ⟨_, eq, rfl⟩
  | negated e =>
    rw [Read] at h
    obtain ⟨-, g, -, eq⟩ := h
    exact ⟨_, eq, rfl⟩
  | binary op spaced left right =>
    rw [Read] at h
    obtain ⟨-, -, l, r, -, -, eq⟩ := h
    exact ⟨_, eq, rfl⟩

/-- What is read as it is put together is one operand where no operator stands outermost. -/
theorem Read.operand_iff (h : e.Read) :
    (∃ parts, Cpp.group? e.spelled = some (.operand parts)) ↔ e.level = 9 := by
  obtain ⟨g, eq, level⟩ := h.group?
  rw [eq, ← level]
  constructor
  · rintro ⟨parts, same⟩
    cases same
    rfl
  · intro nine
    obtain ⟨parts, rfl⟩ := Grouping.operand_of_level nine
    exact ⟨parts, rfl⟩

theorem spelledAll_eq (es : List Assembly) : spelledAll es = es.map spelled := by
  induction es with
  | nil => rw [spelledAll, List.map_nil]
  | cons e es ih => rw [spelledAll, ih, List.map_cons]

theorem readAll_iff {es : List Assembly} : ReadAll es ↔ ∀ e ∈ es, e.Read := by
  induction es with
  | nil => exact iff_of_true (by rw [ReadAll]; trivial) nofun
  | cons e es ih => rw [ReadAll, List.forall_mem_cons, ih]

theorem Read.scans (h : e.Read) : ∃ s, Scans e.spelled s := by
  obtain ⟨g, eq, -⟩ := h.group?
  obtain ⟨s, scans, -⟩ := group?_eq_some_iff.mp eq
  exact ⟨s, scans⟩

/-- What is read as it is put together is an item. -/
theorem ReadAll.items {es : List Assembly} (h : ReadAll es) :
    (∀ a ∈ spelledAll es, Single a) ∧ ∀ a ∈ spelledAll es, Solid a := by
  rw [spelledAll_eq]
  constructor
  · intro a mem
    obtain ⟨e, here, rfl⟩ := List.mem_map.mp mem
    obtain ⟨s, scans⟩ := (readAll_iff.mp h e here).scans
    exact scans.single
  · intro a mem
    obtain ⟨e, here, rfl⟩ := List.mem_map.mp mem
    obtain ⟨s, scans⟩ := (readAll_iff.mp h e here).scans
    exact scans.solid

theorem ReadAll.items? {es : List Assembly} (h : ReadAll es) :
    Cpp.items? (Text.joined ", " (spelledAll es)).toList = some (spelledAll es) :=
  items?_joined h.items.1 h.items.2

/-! ### One node -/

theorem read_parens : (parens e).Read ↔ e.Read := by
  rw [Read, spelled]
  refine ⟨fun h => h.1, fun h => ⟨h, ?_⟩⟩
  obtain ⟨s, scans⟩ := h.scans
  exact @group?_group [e.spelled] '(' ')' rfl (List.forall_mem_singleton.mpr scans.single)

theorem read_braces {items : List Assembly} : (braces items).Read ↔ ReadAll items := by
  rw [Read, spelled]
  refine ⟨fun h => h.1, fun h => ⟨h, h.items?, ?_⟩⟩
  exact group?_group (o := '\x7b') (d := '\x7d') rfl h.items.1

theorem read_call {f : Callee} {items : List Assembly} : (call f items).Read ↔ ReadAll items := by
  rw [Read, spelled]
  exact ⟨fun h => h.1, fun h => ⟨h, h.items?, group?_call f.callable h.items.1⟩⟩

theorem read_applied {items : List Assembly} :
    (applied e items).Read ↔ e.level = 9 ∧ e.Read ∧ ReadAll items := by
  rw [Read, spelled]
  constructor
  · rintro ⟨h, all, -, parts, eq, -⟩
    obtain ⟨g, same, level⟩ := h.group?
    cases same.symm.trans eq
    exact ⟨level.symm, h, all⟩
  · rintro ⟨nine, h, all⟩
    obtain ⟨g, eq, level⟩ := h.group?
    obtain ⟨parts, rfl⟩ := Grouping.operand_of_level (level.trans nine)
    exact ⟨h, all, all.items?, parts, eq, group?_applied eq all.items.1⟩

theorem read_member {m : Member} :
    (member e m).Read ↔ e.level = 9 ∧ endsInNumber e.spelled = false ∧ e.Read := by
  have word := List.all_eq_true.mp m.word
  rw [Read, spelled]
  constructor
  · rintro ⟨h, parts, eq, behind⟩
    obtain ⟨g, same, level⟩ := h.group?
    cases same.symm.trans eq
    exact ⟨level.symm, (group?_member_iff eq m.filled word).mp behind, h⟩
  · rintro ⟨nine, ends, h⟩
    obtain ⟨g, eq, level⟩ := h.group?
    obtain ⟨parts, rfl⟩ := Grouping.operand_of_level (level.trans nine)
    exact ⟨h, parts, eq, (group?_member_iff eq m.filled word).mpr ends⟩

theorem read_negated :
    (negated e).Read ↔ 8 ≤ e.level ∧ Operator.sub.fusesWith e.spelled = false ∧ e.Read := by
  rw [Read, spelled]
  constructor
  · rintro ⟨h, g, eq, signed⟩
    obtain ⟨g', same, level⟩ := h.group?
    cases same.symm.trans eq
    obtain ⟨tight, alone⟩ := (group?_minus_iff eq).mp signed
    exact ⟨level ▸ tight, alone, h⟩
  · rintro ⟨tight, alone, h⟩
    obtain ⟨g, eq, level⟩ := h.group?
    exact ⟨h, g, eq, (group?_minus_iff eq).mpr ⟨level ▸ tight, alone⟩⟩

theorem group?_binary_spelled_iff {op : Operator} {spaced : Bool} {left right : Assembly}
    {l r : Grouping} (hl : Cpp.group? left.spelled = some l)
    (hr : Cpp.group? right.spelled = some r) :
    Cpp.group? (binary op spaced left right).spelled = some (.binary op l r)
      ↔ op.level ≤ l.level ∧ op.level < r.level
        ∧ (spaced = false → op.fusesWith right.spelled = false) := by
  cases spaced with
  | false =>
    rw [spelled, group?_binary_iff hl hr]
    simp
  | true =>
    rw [spelled, group?_spaced_iff hl hr]
    simp

theorem read_binary {op : Operator} {spaced : Bool} {left right : Assembly} :
    (binary op spaced left right).Read
      ↔ op.level ≤ left.level ∧ op.level < right.level
        ∧ (spaced = false → op.fusesWith right.spelled = false) ∧ left.Read ∧ right.Read := by
  rw [Read]
  constructor
  · rintro ⟨hl, hr, l, r, eql, eqr, eq⟩
    obtain ⟨l', samel, levell⟩ := hl.group?
    obtain ⟨r', samer, levelr⟩ := hr.group?
    cases samel.symm.trans eql
    cases samer.symm.trans eqr
    obtain ⟨le, lt, apart⟩ := (group?_binary_spelled_iff eql eqr).mp eq
    exact ⟨levell ▸ le, levelr ▸ lt, apart, hl, hr⟩
  · rintro ⟨le, lt, apart, hl, hr⟩
    obtain ⟨l, eql, levell⟩ := hl.group?
    obtain ⟨r, eqr, levelr⟩ := hr.group?
    exact ⟨hl, hr, l, r, eql, eqr,
      (group?_binary_spelled_iff eql eqr).mpr ⟨levell ▸ le, levelr ▸ lt, apart⟩⟩

/-! ### All nodes -/

mutual

/-- A text is read as it is put together exactly if every part is tight enough for its place. -/
theorem read_iff_fits : ∀ e : Assembly, e.Read ↔ e.Fits
  | whole text => by rw [Read, Fits]
  | parens e => by rw [read_parens, Fits, read_iff_fits e]
  | braces items => by rw [read_braces, Fits, readAll_iff_fitsAll items]
  | call f items => by rw [read_call, Fits, readAll_iff_fitsAll items]
  | applied e items => by rw [read_applied, Fits, read_iff_fits e, readAll_iff_fitsAll items]
  | member e m => by rw [read_member, Fits, read_iff_fits e]
  | negated e => by rw [read_negated, Fits, read_iff_fits e]
  | binary op spaced left right => by
    rw [read_binary, Fits, read_iff_fits left, read_iff_fits right]

theorem readAll_iff_fitsAll : ∀ es : List Assembly, ReadAll es ↔ FitsAll es
  | [] => by rw [ReadAll, FitsAll]
  | e :: es => by rw [ReadAll, FitsAll, read_iff_fits e, readAll_iff_fitsAll es]

end

mutual

/-- Whether all parts are tight enough can be computed. -/
def decideFits : ∀ e : Assembly, Decidable e.Fits
  | whole text => decidable_of_iff ((group? text).isSome = true) (by rw [Fits])
  | parens e => @decidable_of_iff _ e.Fits (by rw [Fits]) (decideFits e)
  | braces items => @decidable_of_iff _ (FitsAll items) (by rw [Fits]) (decideFitsAll items)
  | call _ items => @decidable_of_iff _ (FitsAll items) (by rw [Fits]) (decideFitsAll items)
  | applied e items =>
      have := decideFits e
      have := decideFitsAll items
      decidable_of_iff (e.level = 9 ∧ e.Fits ∧ FitsAll items) (by rw [Fits])
  | member e _ =>
      have := decideFits e
      decidable_of_iff (e.level = 9 ∧ endsInNumber e.spelled = false ∧ e.Fits) (by rw [Fits])
  | negated e =>
      have := decideFits e
      decidable_of_iff (8 ≤ e.level ∧ Operator.sub.fusesWith e.spelled = false ∧ e.Fits)
        (by rw [Fits])
  | binary op spaced left right =>
      have := decideFits left
      have := decideFits right
      decidable_of_iff (op.level ≤ left.level ∧ op.level < right.level
        ∧ (spaced = false → op.fusesWith right.spelled = false) ∧ left.Fits ∧ right.Fits)
        (by rw [Fits])

def decideFitsAll : ∀ es : List Assembly, Decidable (FitsAll es)
  | [] => isTrue (by rw [FitsAll]; trivial)
  | e :: es =>
      have := decideFits e
      have := decideFitsAll es
      decidable_of_iff (e.Fits ∧ FitsAll es) (by rw [FitsAll])

end

instance : DecidablePred Fits := decideFits

theorem level_whole_le (text : String) : (whole text).level ≤ 9 := by
  rw [level]
  cases group? text with
  | none => exact Nat.zero_le 9
  | some g => exact g.level_le

/-- A text that is pasted is as tight as its loosest operator. -/
theorem tight_iff {ℓ : Nat} {text : String} :
    Tight ℓ text ↔ (whole text).Fits ∧ ℓ ≤ (whole text).level := by
  rw [Fits, level, Tight]
  cases group? text with
  | none => simp
  | some g => simp

/-- What is read as it is put together is as tight as what stands outermost. -/
theorem Read.tight_iff (h : e.Read) {ℓ : Nat} : Tight ℓ e.spelled ↔ ℓ ≤ e.level := by
  obtain ⟨g, eq, level⟩ := h.group?
  rw [Tight, eq, ← level]
  simp

/-- A text is tight enough for every place exactly if it is one operand. -/
theorem level_whole_iff {text : String} (fits : (whole text).Fits) :
    (whole text).level = 9 ↔ Tight 9 text := by
  rw [tight_iff, and_iff_right fits]
  exact ⟨fun eq => Nat.le_of_eq eq.symm, fun le => Nat.le_antisymm (level_whole_le text) le⟩

instance (ℓ : Nat) : DecidablePred (Tight ℓ) := fun _ => decidable_of_iff _ tight_iff.symm

instance : DecidablePred Read := fun e => decidable_of_iff e.Fits (read_iff_fits e).symm

/-- A product of sums needs parentheses, and a sum of products does not. -/
example : ¬(binary .mul false (whole "a+b") (whole "c")).Read
    ∧ (binary .mul false (parens (whole "a+b")) (whole "c")).Read
    ∧ (binary .add false (whole "a*b") (whole "c")).Read := by decide

end Assembly

end MatrixScript.Cpp
