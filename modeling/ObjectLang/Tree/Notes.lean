import ObjectLang.Tree.Basic

/-!
# Notes of a tree

The notes of a tree are what name resolution leaves in it, as a flat list.  A node comes before
its parts: a class before its fields and its methods, a function before its parameters, its local
declarations and its body, a call before its arguments.  Literals and operators have no notes of
their own.
-/

namespace ObjectLang

/-- What a resolved tree says at one of its nodes. -/
inductive Note where
  | cls (name : String) (entry superEntry : Option Entry)
  | field (name : String) (offset : Option Int)
  | param (name : String) (offset : Option Int)
  | method (name : String) (signature : Signature) (offset : Option Int)
  | var (name : String) (line : SourceLine) (offset : Option Int)
  | fn (name : String) (signature : Signature) (line : SourceLine) (offset : Option Int)
  | ident (line : SourceLine) (name : String) (binding : Option Binding)
  | call (line : SourceLine) (name : String) (binding : Option Binding)
  | send (line : SourceLine) (receiver method : String) (binding : Option MethodBinding)
  | new (line : SourceLine) (cls : String) (entry : Option Entry)
deriving DecidableEq

/-- Has name resolution found what belongs here? -/
def Note.isFilled : Note → Bool
  | cls _ entry _ | new _ _ entry => entry.isSome
  | field _ offset | param _ offset | method _ _ offset | var _ _ offset | fn _ _ _ offset =>
    offset.isSome
  | ident _ _ binding | call _ _ binding => binding.isSome
  | send _ _ _ binding => binding.isSome

mutual

/-- The notes of an expression. -/
def Expr.notes : Expr → List Note
  | .int _ _ | .bool _ _ | .null _ => []
  | .arith _ _ l r | .compare _ _ l r | .logic _ _ l r => l.notes ++ r.notes
  | .not _ e | .print _ e => e.notes
  | .cond _ c t f => c.notes ++ t.notes ++ f.notes
  | .ident line name b => [.ident line name b]
  | .call line name args b => .call line name b :: Expr.notesAll args
  | .send line receiver method args b => .send line receiver method b :: Expr.notesAll args
  | .new line cls args entry => .new line cls entry :: Expr.notesAll args

/-- The notes of several expressions. -/
def Expr.notesAll : List Expr → List Note
  | [] => []
  | e :: es => e.notes ++ Expr.notesAll es

end

theorem Expr.notesAll_eq_flatMap (es : List Expr) :
    Expr.notesAll es = es.flatMap Expr.notes := by
  induction es with
  | nil => rfl
  | cons e es ih => simp [Expr.notesAll, ih]

mutual

/-- The notes of a declaration. -/
def Decl.notes : Decl → List Note
  | .var v => .var v.name v.line v.offset :: v.init.notes
  | .fn f => .fn f.name f.signature f.line f.offset :: f.inner

/-- The notes inside a routine. -/
def Routine.inner : Routine → List Note
  | ⟨_, params, _, decls, body, _, _⟩ =>
    params.map (fun p => .param p.name p.offset) ++ Decl.notesAll decls ++ body.notes

/-- The notes of several declarations. -/
def Decl.notesAll : List Decl → List Note
  | [] => []
  | d :: ds => d.notes ++ Decl.notesAll ds

end

/-- The notes of a class. -/
def ClassDecl.notes (c : ClassDecl) : List Note :=
  .cls c.name c.entry c.superEntry :: c.fields.map (fun f => .field f.name f.offset) ++
    c.methods.flatMap fun m => .method m.name m.signature m.offset :: m.inner

/-- The notes of a program. -/
def Program.notes (p : Program) : List Note :=
  p.classes.flatMap ClassDecl.notes ++ Decl.notesAll p.decls ++ p.main.notes

end ObjectLang
