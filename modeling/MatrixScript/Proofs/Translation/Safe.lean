/-
# `Proofs.Translation.Safe` — translating a program never fails to read

What can go wrong when a node is translated, apart from the program: a link or
a rule leads out of the tree, a rule reads past the children or texts that
there are, the integer before a literal leaves 64 bits, or a pattern is cut
in the middle of a character.  `SafeAt` says that none of it happens at one
node, and `SafeRoot` that it happens nowhere on the way of a whole
translation, whose depth is bounded by the number of nodes.

It is safe to translate the tree of any script, under any translator, and to
translate what that leaves (`safeRoot_of_ofScript`): being well formed is all
that is needed, and translation keeps it.
-/
import MatrixScript.Proofs.Rule.BuiltinAnswer
import MatrixScript.Proofs.Token.Number
import MatrixScript.Proofs.Text.Slice
import MatrixScript.Proofs.Translation.Bare
import MatrixScript.Proofs.Tree.OfProgram

namespace MatrixScript

/-! ## One node -/

namespace Workspace

/-- Answer of the rule of a node whose children have these texts. -/
def answer (w : Workspace) (id : NodeId) (texts : List String) : Except Error Outcome :=
  Rule.select w.tree (w.tree.node id) (w.site id texts)

/-- Applying the rule of a node seeds the node and commits the answer. -/
theorem applyRule_eq (id : NodeId) (texts : List String) (w : Workspace) :
    Resolving.applyRule id texts w
      = match (w.seed id).answer id texts with
        | .error e => (.error e, w.seed id)
        | .ok o => (.ok ((w.seed id).textOf id texts o), (w.seed id).commit id texts o) := rfl

/-- Nothing is read at the node that is not there. -/
structure SafeAt (w : Workspace) (id : NodeId) (texts : List String) : Prop where
  self : id < w.tree.size
  children : ∀ id, ∀ child ∈ w.tree.children id, child < w.tree.size
  parents : ∀ id parent, w.tree.parent? id = some parent → parent < w.tree.size
  /-- every child has a text -/
  lengths : texts.length = (w.tree.children id).length
  /-- the rule reads only children, texts and extents that there are -/
  rule : Answers w.tree ((w.seed id).answer id texts)
  /-- slices of the pattern lie between its characters -/
  pattern : ∀ o, (w.seed id).answer id texts = .ok o →
    o.template.renderSliced? { (w.seed id).tree.node id with typing := o.typing } texts
      = some ((w.seed id).textOf id texts o)
  /-- the integer before a literal has 64 bits too -/
  literal : ∀ id v, (w.tree.node id).intValue? = some v →
    -2 ^ 63 ≤ v - 1 ∧ v - 1 < 2 ^ 63 ∧ Node.predecessor v = v - 1

end Workspace

/-! ## The whole walk -/

namespace Resolving

section Walk

variable (safe : NodeId → Workspace → Prop) (resolve : NodeId → Resolving String)

/-- It is safe to resolve nodes from left to right, up to the first error. -/
def SafeTexts : List NodeId → Workspace → Prop
  | [], _ => True
  | id :: ids, w =>
      safe id w ∧
        match resolve id w with
        | (.error _, _) => True
        | (.ok _, w) => SafeTexts ids w

/-- It is safe to resolve a node after its children. -/
def SafeNode (id : NodeId) (w : Workspace) : Prop :=
  SafeTexts safe resolve (w.tree.children id) w ∧
    match texts resolve (w.tree.children id) w with
    | (.error _, _) => True
    | (.ok texts, w) => w.SafeAt id texts

/-- It is safe to resolve a statement. -/
def SafeStatement (id : NodeId) (w : Workspace) : Prop :=
  safe id { w with state := w.state.withPending [] }

/-- It is safe to resolve several statements. -/
def SafeBlock : List NodeId → Workspace → Prop
  | [], _ => True
  | id :: ids, w => SafeStatement safe id w ∧ SafeBlock ids (statementLines resolve id w).2

end Walk

/-- It is safe to resolve a node, and there are fewer than `depth` levels below it. -/
def SafeWithin : Nat → NodeId → Workspace → Prop
  | 0, _, _ => False
  | depth + 1, id, w =>
      id < w.tree.size ∧
        match (w.tree.node id).category with
        | .block =>
            SafeBlock (SafeWithin depth) (resolveWithin depth) (w.tree.children id) w
        | .function =>
            SafeNode (SafeWithin depth) (resolveWithin depth) id
              { w with state := w.state.pushScope }
        | _ => SafeNode (SafeWithin depth) (resolveWithin depth) id w

/-- It is safe to translate a whole tree. -/
def SafeRoot (w : Workspace) : Prop :=
  match w.tree.root with
  | none => True
  | some root =>
      root < w.tree.size ∧
        match (w.tree.node root).category with
        | .block =>
            SafeBlock (SafeWithin (w.tree.size + 1)) (resolveWithin (w.tree.size + 1))
              (w.tree.children root) w
        | _ => SafeStatement (SafeWithin (w.tree.size + 1)) root w

end Resolving

/-! ## Integer literals -/

namespace Node

/-- Without a sign in front the integer of a text is not negative. -/
theorem integer?_nonneg {cs : List Char} (unsigned : cs.head? ≠ some '-') {v : Int}
    (h : integer? cs = some v) : 0 ≤ v ∧ v < 2 ^ 63 := by
  unfold integer? at h
  dsimp only at h
  obtain ⟨found, bounds⟩ := Option.filter_eq_some_iff.mp h
  have bounds := of_decide_eq_true bounds
  refine ⟨?_, bounds.2⟩
  split at found
  case h_1 => exact absurd rfl unsigned
  all_goals
    simp only [Option.map_id_fun', id_eq] at found
    obtain ⟨n, -, eq⟩ := Option.bind_eq_some_iff.mp found
    cases eq
    exact Int.natCast_nonneg n

/-- Nothing is cut off before a literal without a sign. -/
theorem predecessor_literal {v : Int} (low : 0 ≤ v) (high : v < 2 ^ 63) :
    predecessor v = v - 1 := by
  have half : Int.pow 2 63 = 2 ^ 63 := rfl
  exact predecessor_eq (by omega) (by omega)

end Node

theorem Token.head?_of_numberAt? {cs : List Char} (h : (numberAt? cs).isSome) :
    cs.head? ≠ some '-' := by
  intro minus
  obtain ⟨rest, rfl⟩ : ∃ rest, cs = '-' :: rest := by
    cases cs with
    | nil => cases minus
    | cons c rest => exact ⟨rest, by rw [Option.some.inj minus]⟩
  obtain ⟨found, eq⟩ := Option.isSome_iff_exists.mp h
  rcases numberAt?_head eq with digit | point
  · cases digit
  · cases point

/-! ## Well-formed trees are safe -/

namespace Tree

variable {t : Tree}

/-- Integer literals have no sign, so the integer before one has 64 bits too. -/
theorem WellFormed.literal_nonneg (h : t.WellFormed) {id : NodeId} {v : Int}
    (value : (t.node id).intValue? = some v) : 0 ≤ v ∧ v < 2 ^ 63 := by
  rcases Nat.lt_or_ge id t.size with lt | ge
  case inr =>
    rw [node_of_size_le ge] at value
    cases value
  case inl =>
    have spelled := (h.shaped id lt).spelled
    unfold Node.intValue? at value
    split at value
    case h_2 => cases value
    case h_1 text int written =>
      have spells : Category.int.spells text := by
        have spells := spelled text written
        rwa [category, int] at spells
      have number : (Token.numberAt? text.toList).isSome := by
        rw [eq_of_beq spells]
        rfl
      exact Node.integer?_nonneg (Token.head?_of_numberAt? number) value

end Tree

namespace Workspace

variable {w : Workspace} {id : NodeId} {texts : List String}

/-- The operands of a node have the categories of its children. -/
theorem categories_site (w : Workspace) (lengths : texts.length = (w.tree.children id).length) :
    (w.site id texts).operands.map (·.node.category)
      = (w.tree.children id).map w.tree.category := by
  have firsts : ((w.tree.children id).zip texts).map Prod.fst = w.tree.children id :=
    List.map_fst_zip (Nat.le_of_eq lengths.symm)
  show (((w.tree.children id).zip texts).map _).map _ = _
  rw [List.map_map]
  conv_rhs => rw [← firsts, List.map_map]
  rfl

theorem sound_site (h : w.tree.WellFormed) (lt : id < w.tree.size)
    (lengths : texts.length = (w.tree.children id).length) : (w.site id texts).Sound where
  self := lt
  operand o mem := by
    obtain ⟨⟨child, text⟩, there, rfl⟩ := List.mem_map.mp mem
    exact h.bound id child (List.of_mem_zip there).1
  node o mem := by
    obtain ⟨⟨child, text⟩, there, rfl⟩ := List.mem_map.mp mem
    rfl
  child := h.bound
  admits := by
    rw [categories_site w lengths]
    exact (h.shaped id lt).children

theorem safeAt (h : w.tree.WellFormed) (lt : id < w.tree.size)
    (lengths : texts.length = (w.tree.children id).length) : w.SafeAt id texts := by
  have same := w.bare_seed id
  have seeded := h.of_bare same
  have lt' : id < (w.seed id).tree.size := by
    rw [Tree.size_of_bare same]
    exact lt
  have lengths' : texts.length = ((w.seed id).tree.children id).length := by
    rw [Tree.children_of_bare same]
    exact lengths
  refine ⟨lt, h.bound, fun _ _ up => h.parent_lt up, lengths, ?_, ?_, ?_⟩
  case refine_1 =>
    have answers := Rule.select_answers (sound_site seeded lt' lengths')
    exact answers.of_size (Tree.size_of_bare same)
  case refine_2 => exact fun o _ => Template.renderSliced?_eq _ _ _
  case refine_3 =>
    intro id v value
    obtain ⟨low, high⟩ := h.literal_nonneg value
    exact ⟨by omega, by omega, Node.predecessor_literal low high⟩

end Workspace

namespace Resolving

theorem length_of_texts {resolve : NodeId → Resolving String} :
    ∀ {ids : List NodeId} {w w' : Workspace} {found : List String},
      texts resolve ids w = (.ok found, w') → found.length = ids.length
  | [], _, _, _, h => by
    cases h
    rfl
  | id :: ids, w, w', found, h => by
    unfold texts at h
    split at h
    case h_1 => cases h
    case h_2 =>
      split at h
      case h_1 => cases h
      case h_2 eq =>
        cases h
        exact congrArg (· + 1) (length_of_texts eq)

section Safe

variable {t : Tree} {safe : NodeId → Workspace → Prop} {resolve : NodeId → Resolving String}
  (keeps : ∀ id, Keeps (resolve id))
include keeps

theorem safeTexts : ∀ {ids : List NodeId} {w : Workspace}, w.tree.bare = t.bare →
    (∀ id ∈ ids, ∀ w : Workspace, w.tree.bare = t.bare → safe id w) → SafeTexts safe resolve ids w
  | [], _, _, _ => trivial
  | id :: ids, w, same, h => by
    obtain ⟨first, rest⟩ := List.forall_mem_cons.mp h
    refine ⟨first w same, ?_⟩
    have kept := keeps id w
    split
    case h_1 => trivial
    case h_2 eq =>
      rw [eq] at kept
      exact safeTexts (kept.trans same) rest

theorem safeNode (wf : t.WellFormed) {id : NodeId} (lt : id < t.size) {w : Workspace}
    (same : w.tree.bare = t.bare)
    (h : ∀ child ∈ t.children id, ∀ w : Workspace, w.tree.bare = t.bare → safe child w) :
    SafeNode safe resolve id w := by
  have children : w.tree.children id = t.children id := by rw [Tree.children_of_bare same]
  refine ⟨safeTexts keeps same (by rwa [children]), ?_⟩
  have kept := keeps_texts keeps (w.tree.children id) w
  split
  case h_1 => trivial
  case h_2 found w' eq =>
    rw [eq] at kept
    have same' := kept.trans same
    have lengths := length_of_texts eq
    refine Workspace.safeAt (wf.of_bare same') ?_ ?_
    · rw [Tree.size_of_bare same']
      exact lt
    · rw [lengths, Tree.children_of_bare kept]

theorem safeBlock : ∀ {ids : List NodeId} {w : Workspace}, w.tree.bare = t.bare →
    (∀ id ∈ ids, ∀ w : Workspace, w.tree.bare = t.bare → safe id w) → SafeBlock safe resolve ids w
  | [], _, _, _ => trivial
  | id :: ids, w, same, h => by
    obtain ⟨first, rest⟩ := List.forall_mem_cons.mp h
    exact ⟨first _ same, safeBlock ((keeps_statementLines keeps id w).trans same) rest⟩

end Safe

/-- A node at distance `k` from the root has fewer than `size - k` levels below it. -/
theorem safeWithin {t : Tree} (wf : t.WellFormed) {root : NodeId} (hroot : t.root = some root) :
    ∀ {depth k : Nat} {id : NodeId}, id < t.size → t.Climbs k id root → t.size + 1 ≤ k + depth →
      ∀ w : Workspace, w.tree.bare = t.bare → SafeWithin depth id w := by
  obtain ⟨top, htop, last, -, free⟩ := wf.root
  obtain rfl := Option.some.inj (hroot.symm.trans htop)
  have bound : root < t.size := Nat.lt_of_succ_le (Nat.le_of_eq last)
  intro depth
  induction depth with
  | zero =>
    intro k id lt climbs enough
    have short := climbs.length_lt free.up bound
    omega
  | succ depth ih =>
    intro k id lt climbs enough w same
    have below : ∀ child ∈ t.children id, ∀ w : Workspace, w.tree.bare = t.bare →
        SafeWithin depth child w := by
      intro child mem
      exact ih (wf.bound id child mem) (.step (wf.parent?_of_mem mem) climbs) (by omega)
    have children : w.tree.children id = t.children id := by rw [Tree.children_of_bare same]
    refine ⟨by rwa [Tree.size_of_bare same], ?_⟩
    split
    · exact safeBlock (keeps_resolveWithin depth) same (by rwa [children])
    · exact safeNode (keeps_resolveWithin depth) wf lt same below
    · exact safeNode (keeps_resolveWithin depth) wf lt same below

theorem safeRoot {w : Workspace} (wf : w.tree.WellFormed) : SafeRoot w := by
  obtain ⟨root, hroot, last, block, free⟩ := wf.root
  have lt : root < w.tree.size := Nat.lt_of_succ_le (Nat.le_of_eq last)
  have children : ∀ child ∈ w.tree.children root, ∀ w' : Workspace, w'.tree.bare = w.tree.bare →
      SafeWithin (w.tree.size + 1) child w' := by
    intro child mem
    exact safeWithin wf hroot (wf.bound root child mem)
      (.step (wf.parent?_of_mem mem) .here) (by omega)
  unfold SafeRoot
  rw [hroot]
  refine ⟨lt, ?_⟩
  have category : (w.tree.node root).category = .block := block
  rw [category]
  exact safeBlock (keeps_resolveWithin _) rfl children

end Resolving

/-! ## Scripts -/

/-- The tree of a script, or what translations have made of it. -/
inductive Tree.OfScript : Tree → Prop
  | parsed {source : String} {t : Tree} : Tree.parse source = .ok t → OfScript t
  | translated {t : Tree} (translator : Translator) : OfScript t →
      OfScript (translator.translate t).2.1

theorem Tree.OfScript.wellFormed {t : Tree} (h : t.OfScript) : t.WellFormed := by
  induction h with
  | parsed run =>
    obtain ⟨p, accepted, rfl⟩ := exists_program_of_parse run
    exact wellFormed_ofProgram accepted
  | translated translator _ ih => exact ih.of_bare (translator.bare_translate _)

/-- Translating the tree of a script never fails to read, however often it was
translated before; nor does reading its strings in double quotes. -/
theorem safeRoot_of_ofScript {t : Tree} (h : t.OfScript) (translator : Translator) :
    Resolving.SafeRoot ⟨t, translator.state⟩
      ∧ ∀ (rest text : List Char) (n : Nat), Token.quotedAt? '\x22' rest = some (text, n) →
        Token.unquote? '\x22' ('\x22' :: rest.take n) = some text :=
  ⟨Resolving.safeRoot h.wellFormed, fun _ _ _ => Token.unquote?_of_quotedAt? (by decide)⟩

/-- An odd script, translated a second time. -/
theorem safeRoot_of_ofScript_again : ∃ t, Tree.parse "[] = f(x)\ny = or()\n" = .ok t
    ∧ Resolving.SafeRoot ⟨(Translator.new.translate t).2.1, Translator.new.state⟩ := by
  have parses : ∃ t, Tree.parse "[] = f(x)\ny = or()\n" = .ok t := ⟨_, by cbv⟩
  obtain ⟨t, run⟩ := parses
  have again : (Translator.new.translate t).2.1.OfScript := .translated _ (.parsed run)
  exact ⟨t, run, (safeRoot_of_ofScript again Translator.new).1⟩

end MatrixScript
