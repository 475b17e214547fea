import ObjectLang.Diagnostic
import ObjectLang.Ty.Basic

/-!
# Program trees

A program is an expression, possibly under classes and declarations.  The tree has room for what
name resolution finds out: the entry that a use of a name refers to, and the offset at which a
declaration is stored.  All of it is optional, since a tree may not have been resolved, or only in
part.

Storage is counted from the frame of the function at whose nesting level a name is declared; the
frame of a use is as many links away as there are levels between the two (`Binding.hops`).
-/

namespace ObjectLang

/-- What a declared name stands for. -/
structure Entry where
  /-- Nesting level of the declaration, `0` for the outermost. -/
  level : Nat
  ty : Ty
  /-- Place in the frame, object or dispatch table that holds it. -/
  offset : Int
deriving DecidableEq

/-- Is it a method? -/
def Entry.isMethod (e : Entry) : Bool := e.ty.isMethod

/-- The declaration that a name refers to. -/
structure Binding where
  entry : Entry
  /-- Nesting level of the use. -/
  level : Nat
deriving DecidableEq

/-- Links from the frame of the use to that of the declaration. -/
def Binding.hops (b : Binding) : Nat := b.level - b.entry.level

/-- The declarations that a method call on a named object refers to. -/
structure MethodBinding where
  receiver : Entry
  method : Entry
  /-- Nesting level of the call. -/
  level : Nat
deriving DecidableEq

/-- Links from the frame of the call to that of the receiver's declaration. -/
def MethodBinding.hops (b : MethodBinding) : Nat := b.level - b.receiver.level

/-! ### Expressions -/

/-- Arithmetic operators. -/
inductive ArithOp where
  | add
  | sub
  | mul
  | div
deriving DecidableEq

/-- Comparison operators. -/
inductive CompareOp where
  | eq
  | le
  | ge
deriving DecidableEq

/-- Connectives. -/
inductive LogicOp where
  | and
  | or
deriving DecidableEq

/-- The operator in source form. -/
def ArithOp.text : ArithOp → String
  | add => "+"
  | sub => "-"
  | mul => "*"
  | div => "/"

/-- The operator in source form. -/
def CompareOp.text : CompareOp → String
  | eq => "=="
  | le => "<="
  | ge => ">="

/-- The connective in source form. -/
def LogicOp.text : LogicOp → String
  | and => "&&"
  | or => "||"

/-- An expression; every node carries its source line. -/
inductive Expr where
  | int (line : SourceLine) (value : Int64)
  | bool (line : SourceLine) (value : Bool)
  | null (line : SourceLine)
  | arith (line : SourceLine) (op : ArithOp) (left right : Expr)
  | compare (line : SourceLine) (op : CompareOp) (left right : Expr)
  | logic (line : SourceLine) (op : LogicOp) (left right : Expr)
  | not (line : SourceLine) (operand : Expr)
  | cond (line : SourceLine) (test yes no : Expr)
  /-- Output the value of the operand, which is also the value of the whole. -/
  | print (line : SourceLine) (operand : Expr)
  /-- The value of a variable. -/
  | ident (line : SourceLine) (name : String) (binding : Option Binding)
  /-- A call of a function, or of a method of the enclosing class. -/
  | call (line : SourceLine) (name : String) (args : List Expr) (binding : Option Binding)
  /-- A call of a method of the object that a variable holds. -/
  | send (line : SourceLine) (receiver method : String) (args : List Expr)
    (binding : Option MethodBinding)
  /-- A new object with the given fields; the entry is that of its class. -/
  | new (line : SourceLine) (cls : String) (args : List Expr) (entry : Option Entry)

/-- Induction on expressions: the parts of an expression come first, arguments included. -/
theorem Expr.ind {P : Expr → Prop} (int : ∀ line n, P (.int line n))
    (bool : ∀ line b, P (.bool line b)) (null : ∀ line, P (.null line))
    (arith : ∀ line op l r, P l → P r → P (.arith line op l r))
    (compare : ∀ line op l r, P l → P r → P (.compare line op l r))
    (logic : ∀ line op l r, P l → P r → P (.logic line op l r))
    (not : ∀ line e, P e → P (.not line e))
    (cond : ∀ line c t f, P c → P t → P f → P (.cond line c t f))
    (print : ∀ line e, P e → P (.print line e))
    (ident : ∀ line name b, P (.ident line name b))
    (call : ∀ line name args b, (∀ e ∈ args, P e) → P (.call line name args b))
    (send : ∀ line receiver method args b, (∀ e ∈ args, P e) →
      P (.send line receiver method args b))
    (new : ∀ line cls args entry, (∀ e ∈ args, P e) → P (.new line cls args entry)) :
    ∀ e, P e := by
  refine @Expr.rec P (fun es => ∀ e ∈ es, P e) int bool null arith compare logic not cond print
    ident (fun line name args b h => call line name args b h)
    (fun line receiver method args b h => send line receiver method args b h)
    (fun line cls args entry h => new line cls args entry h) ?_ ?_
  · simp
  · exact fun e es h hs => List.forall_mem_cons.2 ⟨h, hs⟩

/-! ### Declarations -/

/-- A parameter or a field. -/
structure TypedName where
  name : String
  ty : Ty
  line : SourceLine := 0
  offset : Option Int := none

/-- A variable with its initial value. -/
structure Variable where
  name : String
  ty : Ty
  init : Expr
  line : SourceLine := 0
  offset : Option Int := none

mutual

/-- A declaration. -/
inductive Decl where
  | var (v : Variable)
  | fn (f : Routine)

/-- A function or a method, with its local declarations. -/
structure Routine where
  name : String
  params : List TypedName
  ret : Ty
  decls : List Decl
  body : Expr
  line : SourceLine := 0
  offset : Option Int := none

end

/-- Induction on declarations: the local declarations of a function come first. -/
theorem Decl.ind {P : Decl → Prop} (var : ∀ v, P (.var v))
    (fn : ∀ f : Routine, (∀ d ∈ f.decls, P d) → P (.fn f)) : ∀ d, P d := by
  refine @Decl.rec P (fun f => ∀ d ∈ f.decls, P d) (fun ds => ∀ d ∈ ds, P d) var fn
    (fun _ _ _ _ _ _ _ hs => hs) ?_ ?_
  · simp
  · exact fun d ds h hs => List.forall_mem_cons.2 ⟨h, hs⟩

/-- Parameter and result types of a routine. -/
def Routine.signature (f : Routine) : Signature := ⟨f.params.map (·.ty), f.ret⟩

/-- A class. -/
structure ClassDecl where
  name : String
  superclass : Option String := none
  fields : List TypedName
  methods : List Routine
  line : SourceLine := 0
  /-- The entry of the class. -/
  entry : Option Entry := none
  /-- The entry of its superclass. -/
  superEntry : Option Entry := none

/-- A program. -/
inductive Program where
  /-- An expression alone. -/
  | body (main : Expr)
  /-- An expression under classes and declarations. -/
  | letIn (classes : List ClassDecl) (decls : List Decl) (main : Expr)

namespace Program

/-- The classes of a program. -/
def classes : Program → List ClassDecl
  | body _ => []
  | letIn cs _ _ => cs

/-- The outermost declarations of a program. -/
def decls : Program → List Decl
  | body _ => []
  | letIn _ ds _ => ds

/-- The expression that gives a program its value. -/
def main : Program → Expr
  | body e | letIn _ _ e => e

end Program

end ObjectLang
