import ObjectLang.NameMap
import ObjectLang.Tree.Basic

/-!
# Class layouts

A layout says where the fields and methods of a class are stored, inherited ones included: field
`i` at offset `-(i + 1)` of the object, method `i` at offset `i` of the dispatch table.  A class
starts from the layout of its superclass and adds its own members, so that what is inherited keeps
its place.

A member that has the name of an earlier one of its kind takes over that one's offset.  If the
earlier one is of the other kind, the member takes a new slot.  Kinds are told apart by type: a
field declared with the type of a method counts as a method.
-/

namespace ObjectLang

/-- A named slot of a layout. -/
structure Slot where
  name : String
  entry : Entry
deriving DecidableEq

/-- How a member fits in with those before it. -/
inductive Placement where
  /-- Its name is new. -/
  | fresh
  /-- It replaces a member of its kind. -/
  | replace
  /-- Its name is that of a member of the other kind. -/
  | clash
deriving DecidableEq

/-- The members of a class. -/
structure Layout where
  /-- The fields, slot by slot. -/
  fields : List Slot
  /-- The methods, slot by slot. -/
  methods : List Slot
  /-- The last member added under each name. -/
  members : NameMap Entry

/-- Put a slot at an index, or at the end if there is no slot with that index. -/
def placeSlot (slots : List Slot) (index : Int) (slot : Slot) : List Slot :=
  if 0 ≤ index ∧ index < slots.length then slots.set index.toNat slot else slots ++ [slot]

namespace Layout

/-- The layout without members. -/
def empty : Layout := ⟨[], [], .empty⟩

variable (l : Layout)

/-- The entry of a member. -/
def member? (name : String) : Option Entry := l.members.get? name

/-- The entry of a method. -/
def method? (name : String) : Option Entry := (l.member? name).filter Entry.isMethod

/-- How a field of the given name fits in. -/
def fieldPlacement (name : String) : Placement :=
  match l.member? name with
  | none => .fresh
  | some e => if e.isMethod then .clash else .replace

/-- How a method of the given name fits in. -/
def methodPlacement (name : String) : Placement :=
  match l.member? name with
  | none => .fresh
  | some e => if e.isMethod then .replace else .clash

/-- The offset of a field: that of the field it overrides, or the next free one. -/
def fieldOffset (name : String) : Int :=
  match l.member? name with
  | some e => if e.isMethod then -(l.fields.length : Int) - 1 else e.offset
  | none => -(l.fields.length : Int) - 1

/-- The offset of a method: that of the method it overrides, or the next free one. -/
def methodOffset (name : String) : Int :=
  match l.member? name with
  | some e => if e.isMethod then e.offset else l.methods.length
  | none => l.methods.length

/-- The entry of a field added at a nesting level. -/
def fieldEntry (name : String) (ty : Ty) (level : Nat) : Entry :=
  ⟨level, ty, l.fieldOffset name⟩

/-- The entry of a method added at a nesting level. -/
def methodEntry (name : String) (signature : Signature) (level : Nat) : Entry :=
  ⟨level, .method signature, l.methodOffset name⟩

/-- Add a field. -/
def addField (name : String) (ty : Ty) (level : Nat) : Layout :=
  let entry := l.fieldEntry name ty level
  { l with
    fields := placeSlot l.fields (-entry.offset - 1) ⟨name, entry⟩
    members := l.members.insert name entry }

/-- Add a method. -/
def addMethod (name : String) (signature : Signature) (level : Nat) : Layout :=
  let entry := l.methodEntry name signature level
  { l with
    methods := placeSlot l.methods entry.offset ⟨name, entry⟩
    members := l.members.insert name entry }

/-- The shape of a class with this layout. -/
def shape : Shape where
  fields := l.fields.map (·.entry.ty)
  methods := l.methods.filterMap (·.entry.ty.signature?)

end Layout

/-! ### The table of classes -/

/-- A class that has been laid out. -/
structure ClassRecord where
  /-- How many classes had been entered before. -/
  id : Nat
  layout : Layout
  entry : Entry

/-- The classes laid out so far; the last one of each name counts. -/
structure ClassTable where
  /-- Number of classes entered. -/
  entered : Nat
  records : NameMap ClassRecord

namespace ClassTable

/-- The table without classes. -/
def empty : ClassTable := ⟨0, .empty⟩

variable (t : ClassTable)

/-- Enter a class. -/
def insert (name : String) (layout : Layout) (entry : Entry) : ClassTable :=
  ⟨t.entered + 1, t.records.insert name ⟨t.entered, layout, entry⟩⟩

/-- Is there a class of that name? -/
def contains (name : String) : Bool := t.records.contains name

/-- The number under which a class was entered. -/
def id? (name : String) : Option Nat := (t.records.get? name).map (·.id)

/-- The layout of a class. -/
def layout? (name : String) : Option Layout := (t.records.get? name).map (·.layout)

/-- The entry of a class. -/
def entry? (name : String) : Option Entry := (t.records.get? name).map (·.entry)

/-- Number of names under which classes are known. -/
def size : Nat := t.records.size

/-- Is no class known? -/
def isEmpty : Bool := t.records.isEmpty

end ClassTable

end ObjectLang
