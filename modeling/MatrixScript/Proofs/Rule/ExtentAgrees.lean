/-
# `Proofs.Rule.ExtentAgrees` — the rules of sizes agree

The rules of `size`, `length` and of the extrema with their index: they read the
arguments of a call once more, and are the ones that redirect an assignment and
type the destinations of another.
-/
import MatrixScript.Proofs.Rule.BuiltinAgrees

namespace MatrixScript.BuiltinRule

open Rule

variable {L : Likeness} {quieter : Prop} {s s' : Site}

/-! ## `size` as a value -/

/-- A member of a text. -/
theorem shows_member {a a' e : String} (shows : L.Shows a a') (mem : e ∈ extents) :
    L.Shows (a ++ "." ++ e) (a' ++ "." ++ e) := by
  have dotted := shows.put "." rfl
  simp only [extents, List.mem_cons, List.not_mem_nil, or_false] at mem
  rcases mem with rfl | rfl | rfl <;> exact dotted.putWord _ rfl

theorem shows_receiver {o o' : Operand} (alike : o.Alike L o') :
    L.Shows (receiver o) (receiver o') := by
  unfold receiver
  rw [alike.category]
  split
  · exact alike.text
  · exact shows_parens alike.text

theorem shows_extentList {a a' : String} (shows : L.Shows a a') {members : List String}
    (known : ∀ e ∈ members, e ∈ extents) :
    L.Shows (extentList a members) (extentList a' members) := by
  have each : List.Forall₂ L.Shows (members.map fun e => a ++ "." ++ e)
      (members.map fun e => a' ++ "." ++ e) := by
    induction members with
    | nil => exact .nil
    | cons e members ih =>
      obtain ⟨here, there⟩ := List.forall_mem_cons.mp known
      exact .cons (shows_member shows here) (ih there)
  exact shows_braced (Likeness.shows_joined (j := ", ") rfl each)

theorem mem_of_extentOfAxis? {axis : Int} {e : String} (found : extentOfAxis? axis = some e) :
    e ∈ extents := by
  unfold extentOfAxis? at found
  split at found
  · exact List.mem_of_getElem? found
  · cases found

section

variable (h : s.Alike L quieter s')
include h

theorem isAssignedToVariable_eq : isAssignedToVariable s' = isAssignedToVariable s := by
  have through : ∀ t : Site, isAssignedToVariable t = (t.parent?.map Node.bare).any fun p =>
      p.category == .assign && p.children.head?.any fun d => t.tree.category d == .var := by
    intro t
    unfold isAssignedToVariable
    cases t.parent? <;> rfl
  rw [through, h.parent?, through, Tree.category_of_bare h.bare]

theorem sizeOfAxes_agrees {x x' : Operand} (alike : x.Alike L x') {axes : Nat} (le : axes ≤ 3) :
    Agrees L quieter s s' L.Shows (sizeOfAxes x axes s) (sizeOfAxes x' axes s') := by
  have list : L.Shows (extentList (receiver x) (extents.take axes))
      (extentList (receiver x') (extents.take axes)) :=
    shows_extentList (shows_receiver alike) fun _ => List.mem_of_mem_take
  unfold sizeOfAxes
  rw [extentsOf_eq le, isAssignedToVariable_eq h, h.parentCategory?, h.id]
  refine .ite (fun assigned => .typed _ (.cons (.redirect assigned) .nil) fun _ => list) fun _ => ?_
  refine .ite (fun _ => .typed _ .nil fun _ => ?_) fun _ => ?_
  · exact (((L.opening "urowvec(" rfl).append list).put ")" rfl).shows
  · refine .typed _ (.cons (.hoist (.inl rfl) list) .nil) fun names => ?_
    exact names _ _ rfl

theorem sizeOf_agrees (named : s.node.category.isNamed) {x x' : Operand} (alike : x.Alike L x') :
    Agrees L quieter s s' L.Shows (sizeOf x s) (sizeOf x' s') := by
  unfold sizeOf
  rw [alike.shape]
  have count := (shows_receiver alike).putWord ".n_elem" rfl
  split
  · exact .typed _ .nil fun _ => count
  · exact .typed _ .nil fun _ => count
  · exact sizeOfAxes_agrees h alike (by decide)
  · exact sizeOfAxes_agrees h alike (by decide)
  · exact .keep h .nil fun _ => h.shows_verbatim named

theorem sizeAlong_agrees (named : s.node.category.isNamed) {x x' a a' : Operand}
    (alike : x.Alike L x') (axis : a.Alike L a') :
    Agrees L quieter s s' L.Shows (sizeAlong x a s) (sizeAlong x' a' s') := by
  unfold sizeAlong
  rw [axis.intValue?]
  refine .typed _ .nil fun _ => ?_
  split
  case h_1 extent found =>
    obtain ⟨v, -, found⟩ := Option.bind_eq_some_iff.mp found
    exact shows_member (shows_receiver alike) (mem_of_extentOfAxis? found)
  case h_2 => exact h.shows_verbatim named

theorem size_agrees (named : s.node.category.isNamed) :
    Agrees L quieter s s' L.Shows (size s) (size s') := by
  have operands := h.operands
  have hidden : ∀ {o o' : Operand}, o.Alike L o' → isOpaque o' s' = isOpaque o s := by
    intro o o' alike
    rw [isOpaque, alike.datatype, h.parentCategory?, isOpaque]
  unfold size
  generalize s.operands = os at operands
  generalize s'.operands = os' at operands
  rcases operands with _ | ⟨first, _ | ⟨second, _ | _⟩⟩
  · exact h.refuse named
  · dsimp only
    rw [hidden first]
    exact .ite (fun _ => .keep h .nil fun _ => h.shows_verbatim named) fun _ =>
      sizeOf_agrees h named first
  · dsimp only
    rw [hidden first]
    exact .ite (fun _ => .keep h .nil fun _ => h.shows_verbatim named) fun _ =>
      sizeAlong_agrees h named first second
  · exact h.refuse named

/-! ## `size` in assignments -/

theorem firstArgumentShape_eq {v v' : Operand} (mem : v ∈ s.operands) (last : v.Alike L v') :
    firstArgumentShape s' v' = firstArgumentShape s v := by
  have reach := h.reach v mem
  unfold firstArgumentShape
  rw [last.children]
  cases eq : v.node.children with
  | nil => rfl
  | cons a _ => exact congrArg some (congrArg (·.datatype.shape) (reach a (by simp [eq])).1)

theorem assignSize_agrees (redirect : s.node.redirect = some .size) :
    Agrees L quieter s s' L.prints (assignSize s) (assignSize s') := by
  obtain ⟨-, category, variable_⟩ := h.redirected _ redirect
  obtain ⟨d, v, d', v', eq, eq', first, second, destination⟩ := two h category
  have name : s.tree.Names d.node.name :=
    names_of_mem h (by simp [eq]) (isNamed_of_isDestination destination)
  have named := h.spelt.of_names name
  have var : d.node.category = .var := by
    rw [eq] at variable_
    exact eq_of_beq variable_
  unfold assignSize
  rw [eq, eq']
  refine checked_agrees (names_eq (.cons first .nil)) (by simpa using name) fun free => ?_
  obtain ⟨text, text'⟩ := first.named var (free d (List.mem_singleton_self d))
  dsimp only
  rw [firstArgumentShape_eq h (by simp [eq]) second, text, text']
  refine .keep h (binding_alike category eq first second) fun _ => ?_
  generalize d.node.name = x at named
  have two_lines : ∀ value axes : String, "uword _" ++ x ++ " [] = " ++ value ++ " ;\n" ++ x
        ++ " = urowvec(_" ++ x ++ ", " ++ axes ++ ", false) ;"
      = Text.joined "\n" ["uword " ++ ("_" ++ x) ++ " [] = " ++ value ++ " ;",
        x ++ " = urowvec(" ++ ("_" ++ x) ++ (", " ++ axes ++ ", false) ;")] := by
    intro value axes
    apply String.toList_injective
    simp [Text.joined]
  have filled : L.line ("uword " ++ ("_" ++ x) ++ " [] = " ++ v.text ++ " ;")
      ("uword " ++ ("_" ++ x) ++ " [] = " ++ v'.text ++ " ;") := by
    have type : L.like .free "uword " "uword " .gap := L.fixed (by decide)
    have declared := type.append (L.hidden named (m := .gap) (by decide))
    refine L.line_of_like (((declared.put " [] = " rfl).append second.text).put " ;" rfl) ?_
    simp
  have wrapped : ∀ axes : String, Text.scan .word (", " ++ axes ++ ", false) ;").toList
        = some .free →
      L.line (x ++ " = urowvec(" ++ ("_" ++ x) ++ (", " ++ axes ++ ", false) ;"))
        (x ++ " = urowvec(" ++ ("_" ++ x) ++ (", " ++ axes ++ ", false) ;")) := by
    intro axes scanned
    have wrapped := ((Likeness.Shows.name named).put " = urowvec(" rfl).append (L.hidden named (by decide))
    exact L.line_of_like (wrapped.put _ scanned) (by simp)
  show L.prints (_ ++ _) (_ ++ _)
  rw [two_lines, two_lines]
  refine L.joined (.cons filled (.cons (wrapped _ ?_) .nil))
  split <;> decide

/-- A node that is read several times. -/
theorem readable_agrees {id : NodeId} {d : Datatype} (reaches : s.tree.Reaches s.id id)
    (shows : L.Shows (s.tree.node id).text (s'.tree.node id).text) :
    Effect.AllAlike L quieter s (readable s id d).2 (readable s' id d).2
      ∧ (Site.NamesAlike L s s' (readable s id d).2 →
        L.Shows (readable s id d).1 (readable s' id d).1) := by
  have category : (s'.tree.node id).category = (s.tree.node id).category :=
    congrFun (Tree.category_of_bare h.bare) id
  unfold readable
  dsimp only
  rw [category]
  split
  · exact ⟨.nil, fun _ => shows⟩
  · exact ⟨.cons (.hoist reaches shows) .nil, fun names => names _ _ rfl⟩

/-- An argument of a call in a multi-value assignment is in reach. -/
theorem reaches_argument {call : Operand} (mem : call ∈ s.operands) {argument : NodeId}
    (child : argument ∈ call.node.children) : s.tree.Reaches s.id argument := by
  refine .inr (.inr ⟨call.id, ?_, ?_⟩)
  · rw [← h.ids]
    exact List.mem_map_of_mem mem
  · rw [h.sound.node call mem] at child
    exact child

omit h in
/-- The destinations of a multi-value assignment get types. -/
theorem destinations_alike {ds ds' : List Operand} (alike : List.Forall₂ (Operand.Alike L) ds ds')
    (takes : ∀ o ∈ ds, s.Takes o) (d : Datatype) :
    Effect.AllAlike L quieter s (ds.map fun o => .destination o.id d)
      (ds'.map fun o => .destination o.id d) := by
  induction alike with
  | nil => exact .nil
  | @cons o o' ds ds' first _ ih =>
    obtain ⟨here, there⟩ := List.forall_mem_cons.mp takes
    rw [List.map_cons, List.map_cons, first.id]
    exact .cons (.destination here) (ih there)

omit h in
/-- One extent for each destination. -/
theorem lines_of_extents {ds ds' : List Operand} (alike : List.Forall₂ (Operand.Alike L) ds ds')
    {source source' : String} (shows : L.Shows source source') {members : List String}
    (known : ∀ e ∈ members, e ∈ extents) :
    List.Forall₂ L.line
      ((ds.zip members).map fun (o, extent) => o.text ++ " = " ++ source ++ "." ++ extent ++ " ;")
      ((ds'.zip members).map fun (o, extent) =>
        o.text ++ " = " ++ source' ++ "." ++ extent ++ " ;") := by
  induction alike generalizing members with
  | nil => exact .nil
  | @cons o o' ds ds' first _ ih =>
    cases members with
    | nil => exact .nil
    | cons e members =>
      obtain ⟨here, there⟩ := List.forall_mem_cons.mp known
      refine .cons (L.line_of_like (m := .free) ?_ (by simp)) (ih there)
      have front := ((first.text.put " = " rfl).append shows).put "." rfl
      simp only [extents, List.mem_cons, List.not_mem_nil, or_false] at here
      rcases here with rfl | rfl | rfl <;> exact (front.putWord _ rfl).put " ;" rfl

theorem assignsSize_agrees (category : s.node.category = .assigns) :
    Agrees L quieter s s' L.prints (assignsSize s) (assignsSize s') := by
  obtain ⟨ds, call, ds', call', eq, eq', alike, last, names, takes⟩ := several h category
  have there : call ∈ s.operands := by simp [eq]
  have lengths : ds'.length = ds.length := alike.length_eq.symm
  unfold assignsSize
  rw [eq, eq', splitLast?_append, splitLast?_append]
  dsimp only
  rw [last.children]
  cases arguments : call.node.children with
  | nil => exact .fails fun L _ => .word L _ (by decide)
  | cons argument rest =>
    have child : argument ∈ call.node.children := by simp [arguments]
    obtain ⟨typing, shows⟩ := h.reach call there argument child
    have source := readable_agrees h (d := (s.tree.node argument).datatype)
      (reaches_argument h there child) shows
    dsimp only
    rw [lengths, show (s'.tree.node argument).datatype = (s.tree.node argument).datatype from
      congrArg Typing.datatype typing]
    refine .ite (fun _ => .fails fun L _ => ?_) fun count => ?_
    · have opened := (L.fixed (a := "Unsupported construct: size assigned to ") (m := .free)
        (e := .gap) (by decide)).append (Likeness.like_nat (m := .gap) nofun ds.length)
      exact opened.putWord " destinations" rfl
    · have le : ds.length ≤ 3 := by omega
      refine checked_agrees (names_eq alike) names fun _ => ?_
      rw [extentsOf_eq le]
      refine .keep h (source.1.append (destinations_alike alike takes _)) fun named => ?_
      have shown := source.2 fun node d first => named node d (by rw [List.findSome?_append, first]; rfl)
      exact L.joined (lines_of_extents alike shown fun _ => List.mem_of_mem_take)

/-! ## `length` -/

theorem length_agrees (named : s.node.category.isNamed) :
    Agrees L quieter s s' L.Shows (length s) (length s') := by
  have operands := h.operands
  unfold length
  generalize eq : s.operands = os at operands ⊢
  generalize eq' : s'.operands = os' at operands ⊢
  rcases operands with _ | ⟨first, _ | _⟩
  · exact h.refuse named
  · dsimp only
    rw [first.category]
    refine .ite (fun _ => .typed _ .nil fun _ => ?_) fun _ => .typed _ .use fun _ => L.weaken ?_
    · exact Template.like_format (Site.Alike.keys_one eq eq' first) (k := 1) rfl
    · exact Template.like_format (Site.Alike.keys_one eq eq' first) (k := 1) rfl
  · exact h.refuse named

/-! ## `min` and `max` with their index -/

theorem extremumWithIndex_agrees {name : String} (plain : L.plain name) {v v' i i' a a' : Operand}
    (value : v.Alike L v') (index : i.Alike L i') (takesValue : s.Takes v)
    (takesIndex : s.Takes i) (reaches : s.tree.Reaches s.id a.id) (id : a'.id = a.id)
    (typing : a'.node.typing = a.node.typing)
    (shows : L.Shows (s.tree.node a.id).text (s'.tree.node a.id).text) :
    Agrees L quieter s s' L.prints (extremumWithIndex name v i a s)
      (extremumWithIndex name v' i' a' s') := by
  have datatype : a'.datatype = a.datatype := congrArg Typing.datatype typing
  have cls : a'.cls = a.cls := congrArg (·.datatype.cls) typing
  unfold extremumWithIndex
  rw [value.id, index.id, id, datatype, cls]
  dsimp only
  have source := readable_agrees h reaches shows (d := retyped
    [(v.id, Datatype.scalar a.cls), (i.id, Datatype.scalar .uword)] a.id a.datatype)
  refine .keep h (.cons (.destination takesValue) (.cons (.destination takesIndex) source.1))
    fun names => ?_
  have shown := source.2 fun node d first => names node d first
  have call := (((value.text.put " = " rfl).append shown).put "." rfl).append (Likeness.Shows.name plain)
  exact ((call.put "(" rfl).append index.text).ends ") ;" rfl (by decide)

theorem assignsExtremum_agrees (category : s.node.category = .assigns)
    (named : ∀ v ∈ s.operands.getLast?, v.node.category.isNamed) :
    Agrees L quieter s s' L.prints (assignsExtremum s) (assignsExtremum s') := by
  obtain ⟨ds, call, ds', call', eq, eq', alike, last, names, takes⟩ := several h category
  have there : call ∈ s.operands := by simp [eq]
  have function : s.tree.Names call.node.name := names_of_mem h there (named call (by simp [eq]))
  have name := h.spelt.of_names function
  have failing : ∀ {rest : String}, Text.scan .word rest.toList = some .word →
      Agrees L quieter s s' L.prints (.error (.unsupported (call.node.name ++ rest)))
        (.error (.unsupported (call.node.name ++ rest))) := fun closes =>
    .fails fun L spelt => (L.opening "Unsupported construct: " rfl).append
      ((Likeness.Shows.name (spelt.of_names function)).append (L.fixed closes))
  have several : ∀ n : Nat, Agrees L quieter s s' L.prints
      (.error (.unsupported (call.node.name ++ " assigned to " ++ toString n ++ " destinations")))
      (.error (.unsupported (call.node.name ++ " assigned to " ++ toString n ++ " destinations"))) := by
    intro n
    refine .fails fun L spelt => ?_
    have front : L.like .word " assigned to " " assigned to " .gap := L.fixed (by decide)
    have count := (((Likeness.Shows.name (spelt.of_names function)).append front).append
      (Likeness.like_nat (m := .gap) nofun n)).putWord " destinations" rfl
    exact (L.opening "Unsupported construct: " rfl).append count
  unfold assignsExtremum
  rw [eq, eq', splitLast?_append, splitLast?_append]
  dsimp only
  rw [last.children, last.name]
  have destinations := alike
  rcases alike with _ | ⟨value, _ | ⟨index, _ | _⟩⟩
  · exact several 0
  · exact several 1
  · refine checked_agrees (names_eq destinations) names fun _ => ?_
    have reach := h.reach call there
    have within : ∀ c ∈ call.node.children, s.tree.Reaches s.id c := fun _ =>
      reaches_argument h there
    generalize call.node.children = arguments at reach within ⊢
    rcases arguments with _ | ⟨argument, _ | _⟩
    · exact failing rfl
    · obtain ⟨typing, shows⟩ := reach argument (List.mem_singleton_self _)
      dsimp only
      rw [show ∀ text, (⟨argument, s'.tree.node argument, text⟩ : Operand).numeric
        = (s.tree.node argument).numeric from fun _ => congrArg Typing.numeric typing]
      refine .ite (fun _ => ?_) fun _ => .keep h .nil fun _ => ?_
      · exact extremumWithIndex_agrees h name value index (takes _ (by simp)) (takes _ (by simp))
          (within argument (List.mem_singleton_self _)) rfl typing shows
      · have opened := ((L.opening "[" rfl).append value.text).put ", " rfl
        exact (((opened.append index.text).put "] = " rfl).append last.text).ends " ;" rfl (by decide)
    · exact failing rfl
  · rename_i rest
    have lengths := rest.length_eq
    simp only [List.length_cons, ← lengths]
    exact several _

end

end MatrixScript.BuiltinRule
