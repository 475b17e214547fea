import ObjectLang.Tree.Basic
import ObjectLang.Ty.Subtype
import ObjectLang.Typing.Error

/-!
# Types of expressions

`Expr.infer` computes the type of a resolved expression from the entries its names are bound to
and the hierarchy of the program's classes.  It stops at the first thing that is wrong, from left
to right, or at a name that is not bound.
-/

namespace ObjectLang

/-- Why something has no type. -/
inductive Untyped where
  /-- A name in it is not bound. -/
  | unbound
  /-- Something in it is wrong. -/
  | wrong (error : TypeError)
deriving DecidableEq

/-- Nothing but a fault at a line. -/
def illTyped {α : Type} (line : SourceLine) (fault : TypeFault) : Except Untyped α :=
  .error (.wrong ⟨fault, line⟩)

/-- What is bound, if it is. -/
def bound {α : Type} : Option α → Except Untyped α
  | none => .error .unbound
  | some a => .ok a

/-- The type of a variable whose entry has the given type. -/
def valueType (line : SourceLine) (name : String) : Ty → Except Untyped Ty
  | .arrow _ | .method _ => illTyped line (.bareFunction name)
  | .shape _ => illTyped line (.bareClass name)
  | ty => .ok ty

/-- The signature of what is called by its name. -/
def callSignature (line : SourceLine) (name : String) (ty : Ty) : Except Untyped Signature :=
  match ty.signature? with
  | some s => .ok s
  | none => illTyped line (.calledNonFunction name ty)

/-- The signature of what is called as a method. -/
def sendSignature (line : SourceLine) (name : String) : Ty → Except Untyped Signature
  | .method s => .ok s
  | ty => illTyped line (.calledNonFunction name ty)

/-- The signature of the constructor of a class: its fields give an object. -/
def newSignature (line : SourceLine) (cls : String) (ty : Ty) : Except Untyped Signature :=
  match ty.shape? with
  | some s => .ok ⟨s.fields, .ref cls⟩
  | none => illTyped line (.newOfNonClass cls)

/-- The type of a call with `count` arguments, which have been checked with the given outcome. -/
def callType (line : SourceLine) (name : String) (s : Signature) (count : Nat)
    (checked : Except Untyped Unit) : Except Untyped Ty :=
  if s.arity = count then checked.map fun _ => s.ret
  else illTyped line (.argCount name s.arity count)

namespace Hierarchy

variable (h : Hierarchy)

/-- The type of an arithmetic operation on operands of the given types. -/
def arithType (line : SourceLine) (op : String) (left right : Ty) : Except Untyped Ty :=
  if h.isSubtype left .int && h.isSubtype right .int then .ok .int
  else illTyped line (.operandsNotInt op left right)

/-- The type of a comparison or connective on operands of the given types. -/
def truthType (line : SourceLine) (op : String) (left right : Ty) : Except Untyped Ty :=
  if h.comparable left right then .ok .bool
  else illTyped line (.operandsUnrelated op left right)

/-- The type of a negation. -/
def notType (line : SourceLine) (operand : Ty) : Except Untyped Ty :=
  if h.isSubtype operand .int then .ok .bool else illTyped line (.negatedNotInt operand)

/-- A condition has to be a truth value. -/
def checkCondition (line : SourceLine) (test : Ty) : Except Untyped Unit :=
  if h.isSubtype test .bool then .ok () else illTyped line (.testNotBool test)

/-- The type of a conditional with branches of the given types. -/
def branchType (line : SourceLine) (yes no : Ty) : Except Untyped Ty :=
  match h.join? yes no with
  | some ty => .ok ty
  | none => illTyped line (.branchesUnrelated yes no)

end Hierarchy

mutual

/-- The type of an expression. -/
def Expr.infer (h : Hierarchy) : Expr → Except Untyped Ty
  | .int _ _ => .ok .int
  | .bool _ _ => .ok .bool
  | .null _ => .ok .null
  | .arith line op l r => do
    let left ← l.infer h
    let right ← r.infer h
    h.arithType line op.text left right
  | .compare line op l r => do
    let left ← l.infer h
    let right ← r.infer h
    h.truthType line op.text left right
  | .logic line op l r => do
    let left ← l.infer h
    let right ← r.infer h
    h.truthType line op.text left right
  | .not line e => do
    let operand ← e.infer h
    h.notType line operand
  | .cond line c t f => do
    let test ← c.infer h
    h.checkCondition line test
    let yes ← t.infer h
    let no ← f.infer h
    h.branchType line yes no
  | .print _ e => e.infer h
  | .ident line name b => do
    let b ← bound b
    valueType line name b.entry.ty
  | .call line name args b => do
    let b ← bound b
    let s ← callSignature line name b.entry.ty
    callType line name s args.length (Expr.checkArgs h line name 1 args s.params)
  | .send line _ method args b => do
    let b ← bound b
    let s ← sendSignature line method b.method.ty
    callType line method s args.length (Expr.checkArgs h line method 1 args s.params)
  | .new line cls args entry => do
    let entry ← bound entry
    let s ← newSignature line cls entry.ty
    callType line cls s args.length (Expr.checkArgs h line cls 1 args s.params)

/-- Check arguments against parameter types; the first argument has the given position. -/
def Expr.checkArgs (h : Hierarchy) (line : SourceLine) (name : String) :
    Nat → List Expr → List Ty → Except Untyped Unit
  | position, e :: es, expected :: params => do
    let found ← e.infer h
    if h.isSubtype found expected then Expr.checkArgs h line name (position + 1) es params
    else illTyped line (.argNotOfType name position expected found)
  | _, _, _ => .ok ()

end

end ObjectLang
