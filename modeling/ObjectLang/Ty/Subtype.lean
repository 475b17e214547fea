import ObjectLang.Ty.Basic
import ObjectLang.Ty.Hierarchy

/-!
# Subtyping

Subtyping follows the hierarchy on references and is structural on functions, whose parameters go
the other way.  Truth values are numbers, `null` is of every type, and beyond that a type is below
those of its own kind.

Because of the parameters, "below" and "above" are defined together, by recursion on the first of
the two types: `Hierarchy.relates` takes the direction, and `Hierarchy.relates_above` says that the
two directions are converse to each other.
-/

namespace ObjectLang

/-- On which side of the second type the first one is. -/
inductive Side where
  | below
  | above

/-- The other side. -/
def Side.flip : Side → Side
  | below => above
  | above => below

namespace Hierarchy

variable (h : Hierarchy)

/-- Subtyping between two types of which at most one is a function. -/
def isAtomicSubtype (a b : Ty) : Bool :=
  match a, b with
  | .ref c, .ref d => h.inherits c d
  | .bool, .int | .null, _ => true
  | a, b => a.sameKind b

/-- `isAtomicSubtype`, read from the given side. -/
def relatesAtoms (side : Side) (a b : Ty) : Bool :=
  match side with
  | .below => h.isAtomicSubtype a b
  | .above => h.isAtomicSubtype b a

mutual

/-- Is the first type on the given side of the second one? -/
def relates : Side → Ty → Ty → Bool
  | side, .arrow s, .arrow t => relatesSignatures side s t
  | side, a, b => h.relatesAtoms side a b

/-- A signature is below another one of the same arity if its result is below and its parameters
are above. -/
def relatesSignatures : Side → Signature → Signature → Bool
  | side, ⟨params, ret⟩, t =>
    params.length == t.arity && relates side ret t.ret && relatesAll side.flip params t.params

/-- Types on the given side of those in the same place of another list. -/
def relatesAll : Side → List Ty → List Ty → Bool
  | side, a :: as, b :: bs => relates side a b && relatesAll side as bs
  | _, _, _ => true

end

/-- `a` can stand where `b` is expected. -/
def isSubtype (a b : Ty) : Bool := h.relates .below a b

/-- A function of signature `s` can stand where one of signature `t` is expected. -/
def signatureSubtype (s t : Signature) : Bool := h.relatesSignatures .below s t

/-- One of the types is a subtype of the other. -/
def comparable (a b : Ty) : Bool := h.isSubtype a b || h.isSubtype b a

/-- The wider one of two comparable types. -/
def join? (a b : Ty) : Option Ty :=
  if h.isSubtype a b then some b else if h.isSubtype b a then some a else none

variable {h}

/-! ### The two directions -/

theorem relatesAtoms_flip (side : Side) (a b : Ty) :
    h.relatesAtoms side a b = h.relatesAtoms side.flip b a := by
  cases side <;> rfl

mutual

theorem relates_flip (side : Side) : (a b : Ty) → h.relates side a b = h.relates side.flip b a
  | .arrow s, .arrow t => by
    rw [relates, relates]
    exact relatesSignatures_flip side s t
  | .arrow _, .int | .arrow _, .bool | .arrow _, .null | .arrow _, .method _ | .arrow _, .ref _
  | .arrow _, .shape _ => by simp [relates, relatesAtoms_flip side]
  | .int, _ | .bool, _ | .null, _ | .method _, _ | .ref _, _ | .shape _, _ => by
    simp [relates, relatesAtoms_flip side]

theorem relatesSignatures_flip (side : Side) :
    (s t : Signature) → h.relatesSignatures side s t = h.relatesSignatures side.flip t s
  | ⟨params, ret⟩, ⟨params', ret'⟩ => by
    simp only [relatesSignatures, Signature.arity, relates_flip side ret ret',
      relatesAll_flip side.flip params params', Bool.beq_comm]

theorem relatesAll_flip (side : Side) :
    (as bs : List Ty) → h.relatesAll side as bs = h.relatesAll side.flip bs as
  | [], [] | [], _ :: _ | _ :: _, [] => by simp [relatesAll]
  | a :: as, b :: bs => by
    simp only [relatesAll, relates_flip side a b, relatesAll_flip side as bs]

end

/-- To be above is to have the other type below. -/
theorem relates_above (a b : Ty) : h.relates .above a b = h.isSubtype b a :=
  relates_flip .above a b

@[simp] theorem isSubtype_arrow (s t : Signature) :
    h.isSubtype (.arrow s) (.arrow t) = h.signatureSubtype s t := by
  simp [isSubtype, signatureSubtype, relates]

end Hierarchy

end ObjectLang
