/-!
# Finite maps keyed by names

A `NameMap α` binds names to values, each name at most once.  It is kept as a list of pairs with
pairwise different names, so that its size is the number of names it binds and two maps agree as
soon as their lookups do.

The two lemmas that determine it are `get?_insert_self` and `get?_insert_of_ne`: a new binding
replaces the one of the same name and leaves all others alone.
-/

namespace ObjectLang

/-- A finite map from names to values of type `α`. -/
structure NameMap (α : Type) where
  /-- The bindings, the latest one first. -/
  entries : List (String × α)
  /-- No name is bound twice. -/
  nodup : (entries.map Prod.fst).Nodup

namespace NameMap

variable {α : Type}

/-- The map without bindings. -/
def empty : NameMap α := ⟨[], List.nodup_nil⟩

instance : Inhabited (NameMap α) := ⟨empty⟩

variable (m : NameMap α)

/-- The value bound to a name. -/
def get? (name : String) : Option α :=
  (m.entries.find? fun e => e.1 == name).map Prod.snd

/-- Is the name bound? -/
def contains (name : String) : Bool := (m.get? name).isSome

/-- Bind a name, dropping the binding it had. -/
def insert (name : String) (value : α) : NameMap α where
  entries := (name, value) :: m.entries.filter fun e => e.1 != name
  nodup := by
    simp only [List.map_cons, List.nodup_cons]
    refine ⟨by simp, ?_⟩
    exact m.nodup.sublist (List.filter_sublist.map Prod.fst)

/-- Number of names bound. -/
def size : Nat := m.entries.length

/-- Is nothing bound? -/
def isEmpty : Bool := m.entries.isEmpty

/-- The bindings in the order of their names, by code point. -/
def sorted : List (String × α) :=
  m.entries.mergeSort fun a b => decide (a.1 ≤ b.1)

/-- The map that binds each pair in turn, so that later pairs win. -/
def ofList (pairs : List (String × α)) : NameMap α :=
  pairs.foldl (fun m e => m.insert e.1 e.2) empty

variable {m}

@[simp] theorem get?_empty (name : String) : (empty : NameMap α).get? name = none := rfl

@[simp] theorem get?_insert_self (name : String) (value : α) :
    (m.insert name value).get? name = some value := by
  simp [get?, insert]

theorem get?_insert_of_ne {name other : String} (value : α) (h : other ≠ name) :
    (m.insert name value).get? other = m.get? other := by
  have hne : (name == other) = false := by simpa using Ne.symm h
  simp only [get?, insert, List.find?_cons, hne]
  congr 1
  induction m.entries with
  | nil => rfl
  | cons e es ih =>
    by_cases he : e.1 = name
    · simp [he, hne, ih]
    · by_cases ho : e.1 = other
      · simp [ho, h]
      · have : (e.1 == other) = false := by simpa using ho
        simp [he, this, ih]

end NameMap

end ObjectLang
