/-
# `Proofs.Rule.Called` — calls and definitions as the rules write them

What a function gives is returned if it is one thing, and is passed by reference otherwise
(`returned?`, `referred`).  The rules of statements and of functions each decide so for
themselves; here their lines are read back (`CallLine.readLine?_written`,
`Rule.readSignature?_signature`), so what they decided can be compared.
-/
import MatrixScript.Proofs.Cpp.Call
import MatrixScript.Proofs.Rule.LinePhrased
import MatrixScript.Proofs.Rule.Solid

namespace MatrixScript

open Cpp

/-! ## Calls as they are written -/

namespace Cpp

/-- A variable, and elements of one that are selected by items. -/
def Taker (a : String) : Prop := (∀ c ∈ a.toList, Token.isWordRest c)
  ∨ ∃ x items, a = call x items ∧ (∀ c ∈ x.toList, Token.isWordRest c) ∧ ∀ i ∈ items, Single i

/-- Of what a function gives, what it returns: one thing, if it is all. -/
def returned? {α : Type} : List α → Option α
  | [a] => some a
  | _ => none

/-- What it gives by reference: everything, if it returns nothing. -/
def referred {α : Type} : List α → List α
  | [_] => []
  | as => as

theorem referred_map {α β : Type} (f : α → β) (as : List α) :
    referred (as.map f) = (referred as).map f := by
  match as with
  | [] => rfl
  | [_] => rfl
  | _ :: _ :: _ => rfl

theorem returned?_map {α β : Type} (f : α → β) (as : List α) :
    returned? (as.map f) = (returned? as).map f := by
  match as with
  | [] => rfl
  | [_] => rfl
  | _ :: _ :: _ => rfl

theorem isSome_returned? {α : Type} (as : List α) : (returned? as).isSome = (as.length == 1) := by
  match as with
  | [] => rfl
  | [_] => rfl
  | _ :: _ :: _ => rfl

theorem length_referred {α : Type} (as : List α) :
    (referred as).length = if as.length = 1 then 0 else as.length := by
  match as with
  | [] => rfl
  | [_] => rfl
  | _ :: _ :: _ => rfl

theorem referred_eq_self {α : Type} {as : List α} (several : as.length ≠ 1) :
    returned? as = none ∧ referred as = as := by
  match as, several with
  | [], _ => exact ⟨rfl, rfl⟩
  | [_], several => exact absurd rfl several
  | _ :: _ :: _, _ => exact ⟨rfl, rfl⟩

theorem mem_of_referred {α : Type} {a : α} {as : List α} (mem : a ∈ referred as) : a ∈ as := by
  match as, mem with
  | _ :: _ :: _, mem => exact mem

theorem mem_of_returned? {α : Type} {a : α} {as : List α} (mem : a ∈ returned? as) : a ∈ as := by
  match as, mem with
  | [_], mem => exact List.mem_singleton.mpr (Option.some.inj mem).symm

/-- The line of a statement that calls a function. -/
def CallLine.written (l : CallLine) : String :=
  match l.taker with
  | some x => x ++ " = " ++ call l.name l.arguments ++ " ;"
  | none => call l.name l.arguments ++ " ;"

variable {l : CallLine} (word : ∀ c ∈ l.name.toList, Token.isWordRest c)
include word

/-- It is read as it was put together. -/
theorem CallLine.readLine?_written (some : l.name ≠ "") (single : ∀ a ∈ l.arguments, Single a)
    (solid : ∀ a ∈ l.arguments, Solid a) (taker : ∀ x ∈ l.taker, Taker x) :
    readLine? l.written = .some l := by
  obtain ⟨x?, f, as⟩ := l
  unfold written
  cases x? with
  | none => exact readLine?_call some word single solid
  | some x => exact readLine?_assign some word single solid (taker x rfl)

theorem CallLine.isLine_written {I : Idiom} (stem : '\n' ∉ I.stem.toList)
    (phrases : ∀ a ∈ l.arguments, Phrase I false a) (taker : ∀ x ∈ l.taker, Phrase I false x) :
    Text.IsLine l.written := by
  have called : Phrase I false (call l.name l.arguments) :=
    ((Rule.piece_call word phrases).put ")" (r := ⟨[], .apart⟩) rfl).loosen
  obtain ⟨x?, f, as⟩ := l
  unfold written
  cases x? with
  | none =>
    show Text.IsLine (call f as ++ " ;")
    exact Piece.isLine stem (Piece.put called " ;" (r := ⟨[], .apart⟩) rfl)
      (Rule.append_ne_empty (by decide))
  | some x =>
    have assigned := (Piece.put (taker x rfl) " = " (r := ⟨[], .apart⟩) rfl).say called
    show Text.IsLine (x ++ " = " ++ call f as ++ " ;")
    exact Piece.isLine stem (assigned.put " ;" (r := ⟨[], .apart⟩) rfl)
      (Rule.append_ne_empty (by decide))

/-- The call passes one argument for each parameter, and takes a value if there is one. -/
structure CallLine.Fits (l : CallLine) (s : Signature) : Prop where
  name : l.name = s.name
  arguments : l.arguments.length = s.parameters.length
  value : l.taker.isSome ↔ s.result ≠ "void"

end Cpp

/-! ## Rules of calls and of what takes their values -/

/-- The outcome has no effects but types of variables. -/
def Outcome.Calm (o : Outcome) : Prop := ∀ e ∈ o.effects, ∃ x d, e = .record x d

namespace Rule

variable {s : Site}

/-- No built-in is about the node. -/
theorem builtinOf?_eq_none {tree : Tree} {n : Node} (straight : n.redirect = none)
    (free : n.category = .var ∨ n.category = .get → Builtin.isReserved n.name = false)
    (single : n.category ≠ .assigns) : builtinOf? tree n = none := by
  have unknown : Builtin.isReserved n.name = false → Builtin.ofName? n.name = none := fun free =>
    Option.not_isSome_iff_eq_none.mp (Bool.eq_false_iff.mp free)
  unfold builtinOf?
  rw [straight]
  dsimp only
  split
  case h_1 var => exact unknown (free (.inl var))
  case h_2 get => exact unknown (free (.inr get))
  case h_3 assigns => exact absurd assigns single
  case h_4 => rfl

theorem var_calm {o : Outcome} (ok : var s = .ok o) :
    o.effects = [] ∧ s.written o = s.name := by
  unfold var at ok
  split at ok
  · cases ok
    exact ⟨rfl, Template.render_name _ _⟩
  · cases ok
    exact ⟨rfl, Template.render_name _ _⟩

theorem subscript_calm {o : Outcome} (ok : subscript s = .ok o) : o.effects = []
    ∧ (s.written o = call s.name s.texts ∨ s.written o = call s.name (s.operands.map indexText)) := by
  unfold subscript at ok
  split at ok
  case h_1 =>
    cases ok
    exact ⟨rfl, .inl rfl⟩
  case h_2 =>
    dsimp only at ok
    split at ok
    · cases ok
      exact ⟨rfl, .inr rfl⟩
    · cases ok
      exact ⟨rfl, .inr rfl⟩

theorem written_statement {value : Operand} (eq : s.operands = [value]) : ∃ o, statement s = .ok o
    ∧ o.Calm ∧ s.written o = value.text ++ " ;" := by
  refine ⟨_, rfl, nofun, ?_⟩
  show Template.render s.node s.texts _ = _
  rw [Site.texts, eq]
  exact Template.render_statement _ _ _

/-- Destinations that can be assigned to. -/
theorem checkDestinations_eq {ds : List Operand}
    (free : ∀ d ∈ ds, Builtin.isReserved d.node.name = false) : checkDestinations ds = .ok ⟨⟩ := by
  have none : reservedDestination? ds = none := by
    refine List.find?_eq_none.mpr (List.forall_mem_map.mpr fun d mem => ?_)
    rw [free d mem]
    exact Bool.false_ne_true
  rw [checkDestinations, none]

theorem written_assign {destination value : Operand} (eq : s.operands = [destination, value])
    (free : Builtin.isReserved destination.node.name = false) : ∃ o, assign s = .ok o
    ∧ o.Calm ∧ s.written o = destination.text ++ " = " ++ value.text ++ " ;" := by
  unfold assign
  rw [eq]
  dsimp only
  rw [checkDestinations_eq (List.forall_mem_singleton.mpr free)]
  refine ⟨_, rfl, fun e mem => ?_, ?_⟩
  · change e ∈ binding destination value.datatype at mem
    unfold binding at mem
    split at mem
    · exact ⟨_, _, List.mem_singleton.mp mem⟩
    · cases mem
  · show Template.render s.node s.texts _ = _
    rw [Site.texts, eq]
    exact Template.render_assign _ _ _ _

theorem written_assigns {ds : List Operand} {value : Operand} (eq : s.operands = ds ++ [value])
    (free : ∀ d ∈ ds, Builtin.isReserved d.node.name = false) (foreign : isForeignCall s value.node) :
    ∃ o, assigns s = .ok o ∧ o.Calm ∧ s.written o
      = call value.node.name (value.node.children.map (fun a => (s.tree.node a).text) ++ ds.map (·.text))
        ++ " ;" := by
  unfold assigns
  rw [eq, splitLast?_append]
  dsimp only
  rw [checkDestinations_eq free]
  dsimp only [bind, Except.bind]
  rw [if_pos foreign]
  refine ⟨_, rfl, nofun, ?_⟩
  show value.node.name ++ "(" ++ _ ++ ") ;" = _
  rw [call, show ") ;" = ")" ++ " ;" from rfl, ← String.append_assoc]

/-! ## Definitions -/

/-- Every type has a name, and that is not the one of nothing. -/
theorem typeName_ne (d : Datatype) : d.typeName ≠ "" ∧ d.typeName ≠ "void" := by
  obtain ⟨shape, cls⟩ := d
  cases cls <;> cases shape <;> decide

/-- The type before the name of a function. -/
def resultType (s : Site) (outputs : List String) : String :=
  ((returned? outputs).map (declaredType s)).getD "void"

/-- What a function takes. -/
def parameters (s : Site) (inputs outputs : List String) : List String :=
  inputs.map (parameter s) ++ (referred outputs).map (reference s)

theorem resultType_ne_void (s : Site) (outputs : List String) :
    resultType s outputs ≠ "void" ↔ (returned? outputs).isSome := by
  unfold resultType
  cases returned? outputs with
  | none => exact iff_of_false (fun other => other rfl) nofun
  | some y => exact iff_of_true (typeName_ne _).2 rfl

theorem signature_eq (s : Site) (inputs outputs : List String) : signature s inputs outputs
    = resultType s outputs ++ " " ++ call s.name (parameters s inputs outputs) := by
  have void : ∀ ts : List String, "void " ++ s.name ++ "(" ++ Text.joined ", " ts ++ ")"
      = "void" ++ " " ++ call s.name ts := fun ts => by
    simp only [call, String.append_assoc, show "void " = "void" ++ " " from rfl]
  rcases outputs with _ | ⟨output, _ | ⟨second, more⟩⟩
  case nil => exact void _
  case cons.nil =>
    rw [parameters, referred, List.map_nil, List.append_nil]
    simp only [signature, resultType, returned?, call, Option.map_some, Option.getD_some,
      String.append_assoc]
  case cons.cons => exact void _

/-- The first line of a function is read as it was put together. -/
theorem readSignature?_signature (some : s.name ≠ "") (word : ∀ c ∈ s.name.toList, Token.isWordRest c)
    {inputs outputs : List String} (words : ∀ x ∈ inputs, ∀ c ∈ x.toList, Token.isWordRest c)
    (words' : ∀ x ∈ outputs, ∀ c ∈ x.toList, Token.isWordRest c) :
    readSignature? (signature s inputs outputs)
      = .some ⟨resultType s outputs, s.name, parameters s inputs outputs⟩ := by
  have single : ∀ {a}, Phrase ⟨"", []⟩ false a → Single a :=
    Phrase.single (I := ⟨"", []⟩) (show Single "" from rfl)
  have solid : ∀ d : Datatype, ∀ b, Solid (d.typeName ++ b) := fun d =>
    (solid_of_word (typeName_ne d).1 (word_typeName d)).append_left
  rw [signature_eq]
  refine readSignature?_call ?_ some word ?_ ?_
  · unfold resultType
    cases returned? outputs with
    | none => exact show ∀ c ∈ "void".toList, Token.isWordRest c from List.all_eq_true.mp rfl
    | some y => exact word_typeName _
  · refine List.forall_mem_append.mpr ⟨List.forall_mem_map.mpr fun x mem => ?_,
      List.forall_mem_map.mpr fun x mem => ?_⟩
    · exact single (phrase_parameter (words x mem))
    · exact single (phrase_reference (words' x (mem_of_referred mem)))
  · refine List.forall_mem_append.mpr ⟨List.forall_mem_map.mpr fun x _ => ?_,
      List.forall_mem_map.mpr fun x _ => ?_⟩
    · exact (solid _ _).append_left _
    · exact (solid _ _).append_left _

end Rule

end MatrixScript
