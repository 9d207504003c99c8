/-
# `NameTable` — values by name, in the order of the names

An association list kept in increasing order of its names, by code points.
`get?_insert` is the whole theory that the rest needs: an insertion is seen
under its own name and nowhere else.
-/

namespace MatrixScript

/-- Values by name; the names increase along the list. -/
structure NameTable (α : Type) where
  entries : List (String × α) := []
deriving DecidableEq, Repr

namespace NameTable

variable {α : Type}

/-- No names. -/
def empty : NameTable α := {}

instance : Inhabited (NameTable α) := ⟨empty⟩

/-- The value of a name in a list. -/
def find? (name : String) : List (String × α) → Option α
  | [] => none
  | (key, value) :: rest => if key = name then some value else find? name rest

/-- The list with `value` under `name`, which replaces an older value. -/
def put (name : String) (value : α) : List (String × α) → List (String × α)
  | [] => [(name, value)]
  | (key, old) :: rest =>
      if key = name then (name, value) :: rest
      else if name < key then (name, value) :: (key, old) :: rest
      else (key, old) :: put name value rest

/-- The value of a name. -/
def get? (t : NameTable α) (name : String) : Option α := find? name t.entries

/-- The name has a value. -/
def contains (t : NameTable α) (name : String) : Bool := (t.get? name).isSome

/-- The table with `value` under `name`. -/
def insert (t : NameTable α) (name : String) (value : α) : NameTable α :=
  ⟨put name value t.entries⟩

/-- Names in increasing order. -/
def names (t : NameTable α) : List String := t.entries.map (·.1)

/-- No name has a value. -/
def isEmpty (t : NameTable α) : Bool := t.entries.isEmpty

@[simp] theorem get?_empty (name : String) : (empty : NameTable α).get? name = none := rfl

theorem find?_put (name other : String) (value : α) (entries : List (String × α)) :
    find? other (put name value entries) =
      if other = name then some value else find? other entries := by
  induction entries with
  | nil => simp only [put, find?, eq_comm]
  | cons entry rest ih =>
      obtain ⟨key, old⟩ := entry
      unfold put
      split
      · next hk =>
          subst hk
          by_cases h : other = key
          · simp [find?, h]
          · simp [find?, h, Ne.symm h]
      · next hk =>
          split
          · by_cases h : other = name
            · simp [find?, h]
            · simp [find?, h, Ne.symm h]
          · by_cases h : key = other
            · subst h
              simp [find?, hk]
            · simp [find?, h, ih]

theorem get?_insert (t : NameTable α) (name other : String) (value : α) :
    (t.insert name value).get? other = if other = name then some value else t.get? other :=
  find?_put name other value t.entries

end NameTable

end MatrixScript
