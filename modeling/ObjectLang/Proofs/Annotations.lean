import ObjectLang.Tree.Basic

/-!
# Annotations and literals of a tree

The types written in a program, and whether `null` is.  A type is plain if it mentions, at any
depth, neither the type of a method nor that of a class: there is no way to write a value of these,
and a field annotated with the type of a method would be laid out as a method.
-/

namespace ObjectLang

mutual

/-- Does the type mention neither methods nor class shapes? -/
def Ty.isPlain : Ty → Bool
  | .int | .bool | .null | .ref _ => true
  | .arrow s => s.isPlain
  | .method _ | .shape _ => false

/-- Are all types of a signature plain? -/
def Signature.isPlain : Signature → Bool
  | ⟨params, ret⟩ => Ty.arePlain params && ret.isPlain

/-- Are all types of a list plain? -/
def Ty.arePlain : List Ty → Bool
  | [] => true
  | t :: ts => t.isPlain && Ty.arePlain ts

end

theorem Ty.isMethod_of_isPlain {t : Ty} (h : t.isPlain = true) : t.isMethod = false := by
  cases t <;> first | rfl | cases h

/-! ### Annotations -/

mutual

/-- The types written in a declaration. -/
def Decl.annotations : Decl → List Ty
  | .var v => [v.ty]
  | .fn f => f.annotations

/-- The types written in a routine. -/
def Routine.annotations : Routine → List Ty
  | ⟨_, params, ret, decls, _, _, _⟩ => params.map (·.ty) ++ ret :: Decl.annotationsAll decls

/-- The types written in several declarations. -/
def Decl.annotationsAll : List Decl → List Ty
  | [] => []
  | d :: ds => d.annotations ++ Decl.annotationsAll ds

end

/-- The types written in a class. -/
def ClassDecl.annotations (c : ClassDecl) : List Ty :=
  c.fields.map (·.ty) ++ c.methods.flatMap Routine.annotations

/-- The types written in a program. -/
def Program.annotations (p : Program) : List Ty :=
  p.classes.flatMap ClassDecl.annotations ++ Decl.annotationsAll p.decls

/-! ### Null literals -/

mutual

/-- Is there a `null` in the expression? -/
def Expr.mentionsNull : Expr → Bool
  | .null _ => true
  | .int _ _ | .bool _ _ | .ident _ _ _ => false
  | .arith _ _ l r | .compare _ _ l r | .logic _ _ l r => l.mentionsNull || r.mentionsNull
  | .not _ e | .print _ e => e.mentionsNull
  | .cond _ c t f => c.mentionsNull || t.mentionsNull || f.mentionsNull
  | .call _ _ args _ | .send _ _ _ args _ | .new _ _ args _ => Expr.mentionNull args

/-- Is there a `null` in one of the expressions? -/
def Expr.mentionNull : List Expr → Bool
  | [] => false
  | e :: es => e.mentionsNull || Expr.mentionNull es

end

mutual

/-- Is there a `null` in the declaration? -/
def Decl.mentionsNull : Decl → Bool
  | .var v => v.init.mentionsNull
  | .fn f => f.mentionsNull

/-- Is there a `null` in the routine? -/
def Routine.mentionsNull : Routine → Bool
  | ⟨_, _, _, decls, body, _, _⟩ => Decl.mentionNull decls || body.mentionsNull

/-- Is there a `null` in one of the declarations? -/
def Decl.mentionNull : List Decl → Bool
  | [] => false
  | d :: ds => d.mentionsNull || Decl.mentionNull ds

end

/-- Is there a `null` in the program? -/
def Program.mentionsNull (p : Program) : Bool :=
  p.classes.any (fun c => c.methods.any Routine.mentionsNull) || Decl.mentionNull p.decls ||
    p.main.mentionsNull

end ObjectLang
