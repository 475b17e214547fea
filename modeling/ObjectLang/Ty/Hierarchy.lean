import ObjectLang.NameMap

/-!
# Class hierarchies

A hierarchy maps classes to their direct superclasses.  Nothing keeps its edges from forming a
cycle, so the walk up from a class (`Hierarchy.ancestors`) stops after as many steps as there are
edges; a longer walk would only repeat itself.
-/

namespace ObjectLang

/-- The direct superclass of each class that has one. -/
structure Hierarchy where
  supers : NameMap String

namespace Hierarchy

/-- The hierarchy without edges. -/
def empty : Hierarchy := ⟨.empty⟩

variable (h : Hierarchy)

/-- Make `superclass` the direct superclass of `cls`. -/
def extend (cls superclass : String) : Hierarchy := ⟨h.supers.insert cls superclass⟩

/-- The direct superclass. -/
def parent? (cls : String) : Option String := h.supers.get? cls

/-- The first `n` names on the way up from a class, itself included. -/
def walk : Nat → String → List String
  | 0, _ => []
  | n + 1, cls =>
    cls :: match h.parent? cls with
      | none => []
      | some superclass => walk n superclass

/-- The class and its superclasses, the nearest first. -/
def ancestors (cls : String) : List String := h.walk (h.supers.size + 1) cls

/-- Is `ancestor` the class itself or one of its superclasses? -/
def inherits (cls ancestor : String) : Bool := (h.ancestors cls).contains ancestor

end Hierarchy

end ObjectLang
