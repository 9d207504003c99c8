/-
# `Proofs.Config.Declared` — declarations in a document and one by one

A document whose member `declarations` holds some pairs of a name and a type
(`Config.Document`, whatever unknown members stand around it and however its strings are
escaped) gives the configuration that declaring the pairs one after the other gives, and
fails where that fails.  The document's types are read while the pairs are gathered
(`Config.gathered`) and its names are looked at once they all are; one by one, both are
looked at pair by pair.  The two agree because a table has the names that were put into it,
those of earlier declarations included.
-/
import Mathlib.Data.List.Forall2
import MatrixScript.Config.Document
import MatrixScript.Proofs.Config.Grammar

namespace MatrixScript

/-! ## Names of a table -/

theorem NameTable.mem_put {α : Type} {name : String} {value : α} {x : String} :
    ∀ {entries : List (String × α)},
      x ∈ (put name value entries).map (·.1) ↔ x = name ∨ x ∈ entries.map (·.1)
  | [] => by simp [put]
  | (key, old) :: rest => by
    unfold put
    split
    case isTrue same => simp [same]
    case isFalse =>
      split
      case isTrue => simp
      case isFalse =>
        rw [List.map_cons, List.mem_cons, mem_put, List.map_cons, List.mem_cons]
        exact or_left_comm

theorem NameTable.mem_names_insert {α : Type} {t : NameTable α} {name x : String} {value : α} :
    x ∈ (t.insert name value).names ↔ x = name ∨ x ∈ t.names := mem_put

theorem Datatype.ofText_eq_ok_iff {text : String} {d : Datatype} :
    ofText text = .ok d ↔ ofName? (Text.trim text) = some d := by
  unfold ofText
  cases ofName? (Text.trim text) with
  | some e => exact ⟨fun h => congrArg some (Except.ok.inj h), fun h => congrArg _ (Option.some.inj h)⟩
  | none => exact ⟨nofun, nofun⟩

namespace Config

variable {pairs : List (String × String)} {table t : NameTable Datatype} {c c' : Config}

/-! ## Pairs of a name and a type -/

/-- The table with the pairs put into it, or the first type that is none. -/
def gathered (table : NameTable Datatype) : List (String × String) → Except Error (NameTable Datatype)
  | [] => .ok table
  | (name, typeName) :: rest =>
      match Datatype.ofText typeName with
      | .ok d => gathered (table.insert name d) rest
      | .error e => .error e

theorem mem_names_gathered {x : String} : ∀ {pairs : List (String × String)}
    {table : NameTable Datatype}, gathered table pairs = .ok t →
      (x ∈ t.names ↔ x ∈ table.names ∨ ∃ p ∈ pairs, p.1 = x)
  | [], table, h => by
    cases h
    simp
  | (name, typeName) :: pairs, table, h => by
    unfold gathered at h
    split at h
    case h_1 d _ =>
      rw [mem_names_gathered h, NameTable.mem_names_insert, List.exists_mem_cons_iff, or_assoc,
        or_left_comm]
      simp only [eq_comm]
    case h_2 => cases h

theorem exists_gathered_iff : ∀ {pairs : List (String × String)} {table : NameTable Datatype},
    (∃ t, gathered table pairs = .ok t)
      ↔ ∀ p ∈ pairs, (Datatype.ofName? (Text.trim p.2)).isSome
  | [], table => by simp [gathered]
  | (name, typeName) :: pairs, table => by
    rw [List.forall_mem_cons, gathered]
    cases read : Datatype.ofText typeName with
    | ok d =>
      rw [Datatype.ofText_eq_ok_iff.mp read]
      simpa using exists_gathered_iff
    | error e =>
      have none : Datatype.ofName? (Text.trim typeName) = none := by
        cases found : Datatype.ofName? (Text.trim typeName) with
        | none => rfl
        | some d =>
          rw [Datatype.ofText_eq_ok_iff.mpr found] at read
          cases read
      simp [none]

/-- One after the other the pairs give the same table, if no name is reserved. -/
theorem declareAll_eq_ok_iff : ∀ {pairs : List (String × String)} {c : Config},
    c.declareAll pairs = .ok c' ↔ (∀ p ∈ pairs, Builtin.isReserved p.1 = false)
      ∧ ∃ t, gathered c.declarations pairs = .ok t ∧ c' = { c with declarations := t }
  | [], c => by
    constructor
    · intro h
      cases h
      exact ⟨fun _ mem => absurd mem List.not_mem_nil, _, rfl, rfl⟩
    · rintro ⟨-, t, h, rfl⟩
      cases h
      rfl
  | (name, typeName) :: pairs, c => by
    rw [List.forall_mem_cons, declareAll, declare, gathered]
    cases Datatype.ofText typeName with
    | error e => exact ⟨nofun, fun ⟨_, t, h, _⟩ => by cases h⟩
    | ok d =>
      dsimp only
      unfold declareType
      cases reserved : Builtin.isReserved name with
      | true => exact ⟨nofun, fun ⟨⟨free, _⟩, _⟩ => by cases free⟩
      | false =>
        rw [if_neg Bool.false_ne_true]
        dsimp only
        rw [declareAll_eq_ok_iff]
        simp only [true_and]

/-- A table is valid if nothing in it is reserved. -/
theorem validate_eq_ok_iff : c.validate = .ok c' ↔
    (∀ x ∈ c.declarations.names, Builtin.isReserved x = false) ∧ c = c' := by
  unfold validate reservedDeclaration?
  cases found : c.declarations.names.find? Builtin.isReserved with
  | none =>
    have free : ∀ x ∈ c.declarations.names, Builtin.isReserved x = false := fun x mem =>
      Bool.eq_false_iff.mpr (List.find?_eq_none.mp found x mem)
    exact ⟨fun h => ⟨free, Except.ok.inj h⟩, fun ⟨_, same⟩ => congrArg _ same⟩
  | some x =>
    refine ⟨nofun, fun ⟨free, _⟩ => ?_⟩
    have reserved := List.find?_some found
    rw [free x (List.mem_of_find?_eq_some found)] at reserved
    cases reserved

/-- The names that a table was given are looked at in the end or one by one. -/
theorem validate_gathered (h : gathered .empty pairs = .ok t) :
    ({ declarations := t } : Config).validate = .ok c
      ↔ ({} : Config).declareAll pairs = .ok c := by
  have names : ∀ x, x ∈ t.names ↔ ∃ p ∈ pairs, p.1 = x := fun x =>
    (mem_names_gathered h).trans ⟨fun h => h.resolve_left List.not_mem_nil, .inr⟩
  rw [validate_eq_ok_iff, declareAll_eq_ok_iff]
  constructor
  · rintro ⟨free, rfl⟩
    exact ⟨fun p mem => free p.1 ((names p.1).mpr ⟨p, mem, rfl⟩), t, h, rfl⟩
  · rintro ⟨free, t', h', rfl⟩
    obtain rfl : t = t' := Except.ok.inj (h.symm.trans h')
    refine ⟨fun x mem => ?_, rfl⟩
    obtain ⟨p, here, rfl⟩ := (names x).mp mem
    exact free p here

/-- The pairs can be declared exactly if every type is one and no name is reserved. -/
theorem exists_declareAll_iff : (∃ c, ({} : Config).declareAll pairs = .ok c) ↔
    ∀ p ∈ pairs, (Datatype.ofName? (Text.trim p.2)).isSome ∧ Builtin.isReserved p.1 = false := by
  constructor
  · rintro ⟨c, declared⟩
    obtain ⟨free, t, h, -⟩ := declareAll_eq_ok_iff.mp declared
    exact fun p mem => ⟨exists_gathered_iff.mp ⟨t, h⟩ p mem, free p mem⟩
  · intro fine
    have gathers : ∃ t, gathered .empty pairs = .ok t :=
      exists_gathered_iff.mpr fun p mem => (fine p mem).1
    obtain ⟨t, h⟩ := gathers
    exact ⟨_, declareAll_eq_ok_iff.mpr ⟨fun p mem => (fine p mem).2, t, h, rfl⟩⟩

/-! ## Documents -/

open Json (Blank Spells Joined Member Value quote spells_self)

/-- The member spells a pair. -/
def Holds (p : String × String) (m : Member) : Prop :=
  Spells p.1.toList m.name ∧ m.Spaced ∧ ∃ text, m.value = quote text ∧ Spells p.2.toList text

/-- The member has a name that means nothing here, and any value. -/
def Unknown (m : Member) : Prop :=
  (∃ name : String, Spells name.toList m.name
    ∧ name ∉ ["declarations", "temp_prefix", "warnings_as_errors"]) ∧ m.Spaced ∧ Value m.value

/-- The member is the object of the declarations, which are the pairs in this order. -/
def Declares (pairs : List (String × String)) (m : Member) : Prop :=
  Spells "declarations".toList m.name ∧ m.Spaced ∧ ∃ members text,
    List.Forall₂ Holds pairs members ∧ Joined true (members.map Member.text) text
      ∧ m.value = '\x7b' :: (text ++ ['\x7d'])

/-- The text is an object with these declarations among unknown members. -/
def Document (pairs : List (String × String)) (text : List Char) : Prop :=
  ∃ before declarations after inner front back,
    (∀ m ∈ before ++ after, Unknown m) ∧ Declares pairs declarations
      ∧ Joined true ((before ++ declarations :: after).map Member.text) inner
      ∧ Blank front ∧ Blank back ∧ text = front ++ '\x7b' :: (inner ++ '\x7d' :: back)

open Json.Reader

theorem typeReader_run {typeName : String} {text : List Char} (h : Spells typeName.toList text)
    {ws : List Char} (blank : Blank ws) (rest : List Char) :
    typeReader (ws ++ (quote text ++ rest)) = match Datatype.ofText typeName with
      | .ok d => .ok (d, rest)
      | .error e => .error (.unfit (some e.message)) := by
  have want : wantString (ws ++ (quote text ++ rest)) = .ok (typeName, rest) := by
    rw [wantString, ahead?_blank_bind blank (solid_quote text rest)]
    show string (quote text ++ rest) = _
    rw [string_quote h, String.ofList_toList]
  rw [typeReader, bind_run want]
  cases Datatype.ofText typeName <;> rfl

theorem declarationsFrom_run : ∀ {pairs : List (String × String)} {members : List Member}
    {first : Bool} {text : List Char} {n : Nat} {table : NameTable Datatype},
    List.Forall₂ Holds pairs members → Joined first (members.map Member.text) text →
    text.length ≤ n → ∀ rest,
      declarationsFrom (n + 1) first table (text ++ '\x7d' :: rest) = match gathered table pairs with
        | .ok t => .ok (t, rest)
        | .error e => .error (.unfit (some e.message))
  | _, _, first, text, n, table, .nil, h, _, rest => by
    rw [declarationsFrom, bind_run (nextMember_done first (blank_of_joined h)),
      if_neg Bool.false_ne_true, bind_run (closing_here rfl rest)]
    rfl
  | (name, typeName) :: pairs, m :: members, first, text, n, table, .cons holds later, h, le, rest => by
    obtain ⟨spells, ⟨before, after⟩, written, value, spells'⟩ := holds
    have long := length_text m
    obtain ⟨more, joined, short, next⟩ := exists_of_member h
    obtain ⟨n, rfl⟩ : ∃ k, n = k + 1 := ⟨n - 1, by omega⟩
    have type := typeReader_run spells' after (more ++ '\x7d' :: rest)
    rw [declarationsFrom, bind_run (next _), if_pos rfl, text_append,
      bind_run (string_quote spells _), bind_run (colon_run before), value, gathered]
    cases read : Datatype.ofText typeName with
    | ok d =>
      rw [read] at type
      rw [bind_run type, String.ofList_toList]
      exact declarationsFrom_run later joined (by omega) rest
    | error e =>
      rw [read] at type
      rw [bind_error type]

/-- An unknown member is passed over. -/
theorem memberReader_unknown {m : Member} (h : Unknown m) (d : Draft) {rest : List Char}
    (apart : Apart rest) :
    (do let name ← string; memberReader name d : Json.Reader Draft) (m.text ++ rest)
      = .ok (d, rest) := by
  obtain ⟨⟨name, spells, other⟩, ⟨before, after⟩, value⟩ := h
  simp only [List.mem_cons, List.not_mem_nil, or_false, not_or] at other
  rw [text_append, bind_run (string_quote spells _), String.ofList_toList, memberReader,
    if_neg other.1, if_neg other.2.1, if_neg other.2.2, bind_run (colon_run before),
    bind_run (skipValue_run value after apart)]
  rfl

/-- The declarations are gathered. -/
theorem memberReader_declares {m : Member} (h : Declares pairs m) (rest : List Char) :
    (do let name ← string; memberReader name {} : Json.Reader Draft) (m.text ++ rest)
      = match gathered .empty pairs with
        | .ok t => .ok ({ declarations := some t }, rest)
        | .error e => .error (.unfit (some e.message)) := by
  obtain ⟨spells, ⟨before, after⟩, members, text, holds, joined, value⟩ := h
  have object : declarationsReader (m.after ++ (m.value ++ rest)) = match gathered .empty pairs with
      | .ok t => .ok (t, rest)
      | .error e => .error (.unfit (some e.message)) := by
    rw [value, declarationsReader, List.cons_append, ahead?_blank_bind after (solid_cons rfl _)]
    show declarationsFrom ((text ++ ['\x7d'] ++ rest).length + 1) true .empty
      (text ++ ['\x7d'] ++ rest) = _
    have enough : text.length ≤ (text ++ ['\x7d'] ++ rest).length := by
      simp only [List.length_append]
      omega
    have run : declarationsFrom _ true .empty _ = _ :=
      declarationsFrom_run holds joined enough rest
    rw [List.append_assoc] at run ⊢
    exact run
  rw [text_append, bind_run (string_quote spells _), String.ofList_toList, memberReader, if_pos rfl]
  show (colon >>= fun _ => declarationsReader >>= fun t => pure ({ declarations := some t } : Draft)) _ = _
  rw [bind_run (colon_run before)]
  cases read : gathered .empty pairs with
  | ok t =>
    rw [read] at object
    rw [bind_run object]
    rfl
  | error e =>
    rw [read] at object
    rw [bind_error object]

/-- Reads a whole member. -/
def wholeMember (d : Draft) : Json.Reader Draft := do
  let name ← string
  memberReader name d

theorem membersFrom_succ (n : Nat) (first : Bool) (d : Draft) : membersFrom (n + 1) first d = (do
    if ← nextMember first then membersFrom n false (← wholeMember d)
    else
      closing '\x7d'
      return d) := by
  simp only [membersFrom, wholeMember, bind_assoc]

theorem membersFrom_unknown : ∀ {members : List Member} {first : Bool} {text : List Char} {n : Nat}
    (d : Draft), (∀ m ∈ members, Unknown m) → Joined first (members.map Member.text) text →
    text.length ≤ n → ∀ rest, membersFrom (n + 1) first d (text ++ '\x7d' :: rest) = .ok (d, rest)
  | [], first, text, n, d, _, h, _, rest => by
    rw [membersFrom_succ, bind_run (nextMember_done first (blank_of_joined h)),
      if_neg Bool.false_ne_true, bind_run (closing_here rfl rest)]
    rfl
  | m :: members, first, text, n, d, unknown, h, le, rest => by
    obtain ⟨more, joined, short, next⟩ := exists_of_member h
    have long := length_text m
    obtain ⟨n, rfl⟩ : ∃ k, n = k + 1 := ⟨n - 1, by omega⟩
    have apart : Apart (more ++ '\x7d' :: rest) :=
      apart_of_joined joined (List.mem_cons_of_mem _ List.mem_cons_self)
    have here := memberReader_unknown (unknown m List.mem_cons_self) d apart
    rw [membersFrom_succ, bind_run (next _), if_pos rfl, bind_run (p := wholeMember d) here]
    exact membersFrom_unknown d (fun m mem => unknown m (List.mem_cons_of_mem _ mem)) joined
      (by omega) rest

theorem membersFrom_declares {m : Member} {after : List Member} (declares : Declares pairs m)
    (unknown : ∀ m ∈ after, Unknown m) : ∀ {before : List Member} {first : Bool}
    {text : List Char} {n : Nat}, (∀ m ∈ before, Unknown m) →
    Joined first ((before ++ m :: after).map Member.text) text → text.length ≤ n → ∀ rest,
      membersFrom (n + 1) first {} (text ++ '\x7d' :: rest) = match gathered .empty pairs with
        | .ok t => .ok ({ declarations := some t }, rest)
        | .error e => .error (.unfit (some e.message))
  | [], first, text, n, _, h, le, rest => by
    obtain ⟨more, joined, short, next⟩ := exists_of_member h
    have long := length_text m
    obtain ⟨n, rfl⟩ : ∃ k, n = k + 1 := ⟨n - 1, by omega⟩
    have here := memberReader_declares declares (more ++ '\x7d' :: rest)
    rw [membersFrom_succ, bind_run (next _), if_pos rfl]
    cases read : gathered .empty pairs with
    | ok t =>
      rw [read] at here
      rw [bind_run (p := wholeMember {}) here]
      exact membersFrom_unknown _ unknown joined (by omega) rest
    | error e =>
      rw [read] at here
      rw [bind_error (p := wholeMember {}) here]
  | x :: before, first, text, n, unknown', h, le, rest => by
    obtain ⟨more, joined, short, next⟩ := exists_of_member h
    have long := length_text x
    obtain ⟨n, rfl⟩ : ∃ k, n = k + 1 := ⟨n - 1, by omega⟩
    have apart : Apart (more ++ '\x7d' :: rest) :=
      apart_of_joined joined (List.mem_cons_of_mem _ List.mem_cons_self)
    have here := memberReader_unknown (unknown' x List.mem_cons_self) {} apart
    rw [membersFrom_succ, bind_run (next _), if_pos rfl, bind_run (p := wholeMember {}) here]
    exact membersFrom_declares declares unknown (fun m mem => unknown' m (List.mem_cons_of_mem _ mem))
      joined (by omega) rest

/-- A document gives the table of its pairs, or tells which type is none. -/
theorem ofDocument_document {text : String} (h : Document pairs text.toList) :
    ofDocument text = match gathered .empty pairs with
      | .ok t => .ok { declarations := t }
      | .error e => .error (.unfit (some e.message)) := by
  obtain ⟨before, m, after, inner, front, back, unknown, declares, joined, blank, blank', whole⟩ := h
  have read : documentReader text.toList = match gathered .empty pairs with
      | .ok t => .ok ({ declarations := some t }, back)
      | .error e => .error (.unfit (some e.message)) := by
    rw [whole, documentReader, ahead?_blank_bind blank (solid_cons rfl _)]
    show membersFrom ((inner ++ '\x7d' :: back).length + 1) true {} (inner ++ '\x7d' :: back) = _
    refine membersFrom_declares declares (fun m mem => unknown m (List.mem_append_right _ mem))
      (fun m mem => unknown m (List.mem_append_left _ mem)) joined ?_ back
    simp only [List.length_append]
    omega
  have finishes : finish back = .ok (⟨⟩, []) := by
    have skipped : finish (back ++ []) = .ok (⟨⟩, []) := ahead?_blank_bind blank' (by rintro c ⟨⟩)
    rwa [List.append_nil] at skipped
  unfold ofDocument
  cases gathers : gathered .empty pairs with
  | ok t =>
    rw [gathers] at read
    rw [bind_run read, bind_run finishes]
    rfl
  | error e =>
    rw [gathers] at read
    rw [bind_error read]

/-- Reading a document is declaring its pairs one after the other on a new configuration.  Both
fail where a type, without the blanks around it, is none, or where a name is reserved. -/
theorem ofJson_eq_declareAll {text : String} (h : Document pairs text.toList) :
    (∀ c, ofJson text = .ok c ↔ ({} : Config).declareAll pairs = .ok c)
      ∧ ((∃ c, ofJson text = .ok c) ↔ ∀ p ∈ pairs,
        (Datatype.ofName? (Text.trim p.2)).isSome ∧ Builtin.isReserved p.1 = false) := by
  have same : ∀ c, ofJson text = .ok c ↔ ({} : Config).declareAll pairs = .ok c := by
    intro c
    unfold ofJson
    rw [ofDocument_document h]
    cases gathers : gathered .empty pairs with
    | ok t => exact validate_gathered gathers
    | error e =>
      refine ⟨nofun, fun declared => ?_⟩
      obtain ⟨-, t, h', -⟩ := declareAll_eq_ok_iff.mp declared
      rw [show gathered ({} : Config).declarations pairs = _ from gathers] at h'
      cases h'
  exact ⟨same, (exists_congr same).trans exists_declareAll_iff⟩

/-- A document with an unknown member, an escape in the name of the known one and in a type, and
a name that is declared twice. -/
def escapedDocument : String :=
  " \x7b\"note\":[1,\x7b\x7d],\"decl\\u0061rations\":\x7b\"A\":\"mat\", \"A\" :\"v\\u0065c\"\x7d\x7d\n"

theorem document_escaped : Document [("A", "mat"), ("A", "vec")] escapedDocument.toList := by
  have space : Blank [' '] := List.forall_mem_singleton.mpr (.inl rfl)
  have one : Value "1".toList :=
    @Value.number [] ['1'] [] [] (by decide) ⟨⟨nofun, List.forall_mem_singleton.mpr rfl⟩, by decide⟩
      (.inl rfl) (.inl rfl)
  have none : Value "\x7b\x7d".toList := @Value.object [] [] (.done blank_nil) nofun nofun
  have note : Unknown ⟨"note".toList, [], [], "[1,\x7b\x7d]".toList⟩ := by
    refine ⟨⟨"note", spells_self (by decide), by decide⟩, ⟨blank_nil, blank_nil⟩, ?_⟩
    refine @Value.array ["1".toList, "\x7b\x7d".toList] "1,\x7b\x7d".toList ?_ ?_
    · exact @Joined.first [] _ _ _ blank_nil
        (@Joined.next [] [] _ _ _ blank_nil blank_nil (.done blank_nil))
    · intro piece mem
      rcases List.mem_pair.mp mem with rfl | rfl
      · exact one
      · exact none
  have mat : Holds ("A", "mat") ⟨"A".toList, [], [], "\"mat\"".toList⟩ :=
    ⟨spells_self (by decide), ⟨blank_nil, blank_nil⟩, _, rfl, spells_self (by decide)⟩
  have vec : Holds ("A", "vec") ⟨"A".toList, [' '], [], "\"v\\u0065c\"".toList⟩ := by
    refine ⟨spells_self (by decide), ⟨space, blank_nil⟩, "v\\u0065c".toList, rfl, ?_⟩
    exact .plain (by decide) (by decide) (by decide)
      (@Spells.numeric _ _ "0065".toList _ ⟨'0', '0', '6', '5', rfl, .inl rfl, .inl rfl, .inl rfl, .inl rfl⟩
        (spells_self (by decide)))
  have known : Declares [("A", "mat"), ("A", "vec")] ⟨"decl\\u0061rations".toList, [], [],
      "\x7b\"A\":\"mat\", \"A\" :\"v\\u0065c\"\x7d".toList⟩ := by
    refine ⟨?_, ⟨blank_nil, blank_nil⟩, _, "\"A\":\"mat\", \"A\" :\"v\\u0065c\"".toList,
      .cons mat (.cons vec .nil), ?_, rfl⟩
    · exact (show Spells "decl".toList _ from spells_self (by decide)).append
        (@Spells.numeric _ _ "0061".toList _ ⟨'0', '0', '6', '1', rfl, .inl rfl, .inl rfl, .inl rfl, .inl rfl⟩
          (spells_self (by decide)))
    · exact @Joined.first [] _ _ _ blank_nil
        (@Joined.next [] [' '] _ _ _ blank_nil space (.done blank_nil))
  refine ⟨[⟨"note".toList, [], [], "[1,\x7b\x7d]".toList⟩], _, [],
    "\"note\":[1,\x7b\x7d],\"decl\\u0061rations\":\x7b\"A\":\"mat\", \"A\" :\"v\\u0065c\"\x7d".toList,
    [' '], ['\n'], ?_, known, ?_, space, List.forall_mem_singleton.mpr (by decide), rfl⟩
  · intro m mem
    rw [List.mem_singleton.mp mem]
    exact note
  · exact @Joined.first [] _ _ _ blank_nil
      (@Joined.next [] [] _ _ _ blank_nil blank_nil (.done blank_nil))

theorem ofJson_eq_declareAll_escaped :
    Document [("A", "mat"), ("A", "vec")] escapedDocument.toList
      ∧ ∃ c, ofJson escapedDocument = .ok c ∧ c.declarations.names = ["A"] := by
  refine ⟨document_escaped, { declarations := ⟨[("A", ⟨.colvec, .float⟩)]⟩ }, ?_, rfl⟩
  exact ((ofJson_eq_declareAll document_escaped).1 _).mpr rfl

end Config

end MatrixScript
