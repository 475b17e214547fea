/-!
# Types

The same types are written as annotations in a program and computed by the checker.  Besides
numbers, truth values and the type of `null` there are functions (`arrow`), methods, which are
dispatched by the object they are called on, references to objects of a named class, and the shape
of a class, which only the entry of the class itself carries.
-/

namespace ObjectLang

mutual

/-- A type. -/
inductive Ty where
  | int
  | bool
  /-- The type of `null`, below all others. -/
  | null
  /-- A function. -/
  | arrow (signature : Signature)
  /-- A method. -/
  | method (signature : Signature)
  /-- An object of the named class. -/
  | ref (name : String)
  /-- A class. -/
  | shape (shape : Shape)

/-- Parameter types and the type of the result. -/
structure Signature where
  params : List Ty
  ret : Ty

/-- The types of a class's fields and methods, slot by slot. -/
structure Shape where
  fields : List Ty
  methods : List Signature

end

/-- Number of parameters. -/
def Signature.arity (s : Signature) : Nat := s.params.length

namespace Ty

/-- The signature of what can be called. -/
def signature? : Ty → Option Signature
  | arrow s | method s => some s
  | _ => none

/-- The shape of a class. -/
def shape? : Ty → Option Shape
  | shape s => some s
  | _ => none

/-- Is it the type of a method? -/
def isMethod : Ty → Bool
  | method _ => true
  | _ => false

/-- Are both types built by the same constructor? -/
def sameKind : Ty → Ty → Bool
  | int, int | bool, bool | null, null => true
  | arrow _, arrow _ | method _, method _ | ref _, ref _ | shape _, shape _ => true
  | _, _ => false

end Ty

/-! ### Induction -/

/-- Induction on types: for functions and methods the types in the signature come first, for a
class the types in its shape. -/
theorem Ty.ind {P : Ty → Prop} (int : P .int) (bool : P .bool) (null : P .null)
    (arrow : ∀ s : Signature, (∀ t ∈ s.params, P t) → P s.ret → P (.arrow s))
    (method : ∀ s : Signature, (∀ t ∈ s.params, P t) → P s.ret → P (.method s))
    (ref : ∀ name, P (.ref name))
    (shape : ∀ s : Shape, (∀ t ∈ s.fields, P t) →
      (∀ m ∈ s.methods, (∀ t ∈ m.params, P t) ∧ P m.ret) → P (.shape s)) :
    ∀ t, P t := by
  refine @Ty.rec P
    (fun s => (∀ t ∈ s.params, P t) ∧ P s.ret)
    (fun s => (∀ t ∈ s.fields, P t) ∧ ∀ m ∈ s.methods, (∀ t ∈ m.params, P t) ∧ P m.ret)
    (fun ts => ∀ t ∈ ts, P t)
    (fun ss => ∀ m ∈ ss, (∀ t ∈ m.params, P t) ∧ P m.ret)
    int bool null (fun s h => arrow s h.1 h.2) (fun s h => method s h.1 h.2) ref
    (fun s h => shape s h.1 h.2) (fun _ _ hs h => ⟨hs, h⟩) (fun _ _ hs h => ⟨hs, h⟩) ?_ ?_ ?_ ?_
  · simp
  · exact fun t ts h hs => List.forall_mem_cons.2 ⟨h, hs⟩
  · simp
  · exact fun s ss h hs => List.forall_mem_cons.2 ⟨h, hs⟩

/-! ### Classes mentioned -/

mutual

/-- The classes a type mentions, from left to right, as often as it does. -/
def Ty.classes : Ty → List String
  | .int | .bool | .null => []
  | .arrow s | .method s => s.classes
  | .ref name => [name]
  | .shape s => s.classes

/-- The classes a signature mentions. -/
def Signature.classes : Signature → List String
  | ⟨params, ret⟩ => Ty.classesAll params ++ ret.classes

/-- The classes a shape mentions. -/
def Shape.classes : Shape → List String
  | ⟨fields, methods⟩ => Ty.classesAll fields ++ Signature.classesAll methods

/-- The classes mentioned by the types of a list. -/
def Ty.classesAll : List Ty → List String
  | [] => []
  | t :: ts => t.classes ++ Ty.classesAll ts

/-- The classes mentioned by the signatures of a list. -/
def Signature.classesAll : List Signature → List String
  | [] => []
  | s :: ss => s.classes ++ Signature.classesAll ss

end

/-! ### Text -/

/-- The texts one after the other, with a comma between them. -/
def commaSeparated (texts : List String) : String := String.intercalate ", " texts

mutual

/-- The type as shown to the user. -/
def Ty.text : Ty → String
  | .int => "int"
  | .bool => "bool"
  | .null => "null"
  | .arrow s => s.text
  | .method s => "method " ++ s.text
  | .ref name => name
  | .shape s => s.text

/-- The signature as shown to the user. -/
def Signature.text : Signature → String
  | ⟨params, ret⟩ => "(" ++ commaSeparated (Ty.texts params) ++ ") -> " ++ ret.text

/-- The shape as shown to the user. -/
def Shape.text : Shape → String
  | ⟨fields, methods⟩ =>
    "class \x7b fields: [" ++ commaSeparated (Ty.texts fields) ++ "], methods: [" ++
      commaSeparated (Signature.texts methods) ++ "] \x7d"

/-- The texts of a list of types. -/
def Ty.texts : List Ty → List String
  | [] => []
  | t :: ts => t.text :: Ty.texts ts

/-- The texts of a list of signatures. -/
def Signature.texts : List Signature → List String
  | [] => []
  | s :: ss => s.text :: Signature.texts ss

end

/-! ### Equality -/

mutual

/-- Equality of types is decidable. -/
def Ty.decEq : (a b : Ty) → Decidable (a = b)
  | .int, b => match b with
    | .int => isTrue rfl
    | .bool | .null | .arrow _ | .method _ | .ref _ | .shape _ => isFalse (by intro h; cases h)
  | .bool, b => match b with
    | .bool => isTrue rfl
    | .int | .null | .arrow _ | .method _ | .ref _ | .shape _ => isFalse (by intro h; cases h)
  | .null, b => match b with
    | .null => isTrue rfl
    | .int | .bool | .arrow _ | .method _ | .ref _ | .shape _ => isFalse (by intro h; cases h)
  | .arrow s, b => match b with
    | .arrow t => match s.decEq t with
      | isTrue h => isTrue (by rw [h])
      | isFalse h => isFalse (by intro e; cases e; exact h rfl)
    | .int | .bool | .null | .method _ | .ref _ | .shape _ => isFalse (by intro h; cases h)
  | .method s, b => match b with
    | .method t => match s.decEq t with
      | isTrue h => isTrue (by rw [h])
      | isFalse h => isFalse (by intro e; cases e; exact h rfl)
    | .int | .bool | .null | .arrow _ | .ref _ | .shape _ => isFalse (by intro h; cases h)
  | .ref m, b => match b with
    | .ref n =>
      if h : m = n then isTrue (by rw [h]) else isFalse (by intro e; cases e; exact h rfl)
    | .int | .bool | .null | .arrow _ | .method _ | .shape _ => isFalse (by intro h; cases h)
  | .shape s, b => match b with
    | .shape t => match s.decEq t with
      | isTrue h => isTrue (by rw [h])
      | isFalse h => isFalse (by intro e; cases e; exact h rfl)
    | .int | .bool | .null | .arrow _ | .method _ | .ref _ => isFalse (by intro h; cases h)

/-- Equality of signatures is decidable. -/
def Signature.decEq : (a b : Signature) → Decidable (a = b)
  | ⟨ps, r⟩, ⟨qs, s⟩ => match Ty.decEqAll ps qs, r.decEq s with
    | isTrue h, isTrue h' => isTrue (by rw [h, h'])
    | isFalse h, _ => isFalse (by intro e; cases e; exact h rfl)
    | _, isFalse h => isFalse (by intro e; cases e; exact h rfl)

/-- Equality of shapes is decidable. -/
def Shape.decEq : (a b : Shape) → Decidable (a = b)
  | ⟨fs, ms⟩, ⟨gs, ns⟩ => match Ty.decEqAll fs gs, Signature.decEqAll ms ns with
    | isTrue h, isTrue h' => isTrue (by rw [h, h'])
    | isFalse h, _ => isFalse (by intro e; cases e; exact h rfl)
    | _, isFalse h => isFalse (by intro e; cases e; exact h rfl)

/-- Equality of lists of types is decidable. -/
def Ty.decEqAll : (as bs : List Ty) → Decidable (as = bs)
  | [], [] => isTrue rfl
  | [], _ :: _ => isFalse (by intro h; cases h)
  | _ :: _, [] => isFalse (by intro h; cases h)
  | a :: as, b :: bs => match a.decEq b, Ty.decEqAll as bs with
    | isTrue h, isTrue h' => isTrue (by rw [h, h'])
    | isFalse h, _ => isFalse (by intro e; cases e; exact h rfl)
    | _, isFalse h => isFalse (by intro e; cases e; exact h rfl)

/-- Equality of lists of signatures is decidable. -/
def Signature.decEqAll : (as bs : List Signature) → Decidable (as = bs)
  | [], [] => isTrue rfl
  | [], _ :: _ => isFalse (by intro h; cases h)
  | _ :: _, [] => isFalse (by intro h; cases h)
  | a :: as, b :: bs => match a.decEq b, Signature.decEqAll as bs with
    | isTrue h, isTrue h' => isTrue (by rw [h, h'])
    | isFalse h, _ => isFalse (by intro e; cases e; exact h rfl)
    | _, isFalse h => isFalse (by intro e; cases e; exact h rfl)

end

instance : DecidableEq Ty := Ty.decEq

instance : DecidableEq Signature := Signature.decEq

instance : DecidableEq Shape := Shape.decEq

instance : Inhabited Ty := ⟨.int⟩

end ObjectLang
