import ObjectLang.Naming.Env

/-!
# Uses of names

In an expression names are only used, so the environment is the same at all of its nodes.
`Expr.bind` writes what each use refers to into the tree, and `Expr.nameErrors` reports the uses
that refer to nothing.
-/

namespace ObjectLang

namespace Env

variable (env : Env)

/-- The declaration that a name refers to. -/
def binding? (name : String) : Option Binding :=
  (env.scopes.lookup name).map fun entry => ⟨entry, env.level⟩

/-- Report a name that refers to nothing. -/
def useErrors (kind : NameKind) (name : String) (line : SourceLine) : List NameError :=
  if (env.scopes.lookup name).isNone then [⟨.unknownName kind name, line⟩] else []

/-- The declarations that a method call refers to: the receiver has to hold an object, and its
class to have the method. -/
def methodBinding (receiver method : String) : Except NameFault MethodBinding :=
  match env.scopes.lookup receiver with
  | none => .error (.unknownName .object receiver)
  | some entry =>
    match entry.ty with
    | .ref cls =>
      match (env.classes.layout? cls).bind (·.method? method) with
      | none => .error (.noSuchMethod receiver method)
      | some target => .ok ⟨entry, target, env.level⟩
    | _ => .error (.receiverNotObject receiver)

/-- `methodBinding`, where it succeeds. -/
def methodBinding? (receiver method : String) : Option MethodBinding :=
  (env.methodBinding receiver method).toOption

/-- Report a method call that refers to nothing. -/
def sendErrors (receiver method : String) (line : SourceLine) : List NameError :=
  match env.methodBinding receiver method with
  | .ok _ => []
  | .error fault => [⟨fault, line⟩]

/-- Report the construction of an unknown class. -/
def newErrors (cls : String) (line : SourceLine) : List NameError :=
  if (env.classes.entry? cls).isNone then [⟨.unknownClass cls, line⟩] else []

end Env

mutual

/-- Write into an expression what its names refer to, replacing what was there. -/
def Expr.bind (env : Env) : Expr → Expr
  | .int line n => .int line n
  | .bool line b => .bool line b
  | .null line => .null line
  | .arith line op l r => .arith line op (l.bind env) (r.bind env)
  | .compare line op l r => .compare line op (l.bind env) (r.bind env)
  | .logic line op l r => .logic line op (l.bind env) (r.bind env)
  | .not line e => .not line (e.bind env)
  | .cond line c t f => .cond line (c.bind env) (t.bind env) (f.bind env)
  | .print line e => .print line (e.bind env)
  | .ident line name _ => .ident line name (env.binding? name)
  | .call line name args _ => .call line name (Expr.bindAll env args) (env.binding? name)
  | .send line receiver method args _ =>
    .send line receiver method (Expr.bindAll env args) (env.methodBinding? receiver method)
  | .new line cls args _ => .new line cls (Expr.bindAll env args) (env.classes.entry? cls)

/-- `Expr.bind` on several expressions. -/
def Expr.bindAll (env : Env) : List Expr → List Expr
  | [] => []
  | e :: es => e.bind env :: Expr.bindAll env es

end

theorem Expr.bindAll_eq_map (env : Env) (es : List Expr) :
    Expr.bindAll env es = es.map (Expr.bind env) := by
  induction es with
  | nil => rfl
  | cons e es ih => simp [Expr.bindAll, ih]

mutual

/-- The uses in an expression that refer to nothing, in the order of its notes. -/
def Expr.nameErrors (env : Env) : Expr → List NameError
  | .int _ _ | .bool _ _ | .null _ => []
  | .arith _ _ l r | .compare _ _ l r | .logic _ _ l r => l.nameErrors env ++ r.nameErrors env
  | .not _ e | .print _ e => e.nameErrors env
  | .cond _ c t f => c.nameErrors env ++ t.nameErrors env ++ f.nameErrors env
  | .ident line name _ => env.useErrors .var name line
  | .call line name args _ => env.useErrors .fn name line ++ Expr.nameErrorsAll env args
  | .send line receiver method args _ =>
    env.sendErrors receiver method line ++ Expr.nameErrorsAll env args
  | .new line cls args _ => env.newErrors cls line ++ Expr.nameErrorsAll env args

/-- `Expr.nameErrors` of several expressions. -/
def Expr.nameErrorsAll (env : Env) : List Expr → List NameError
  | [] => []
  | e :: es => e.nameErrors env ++ Expr.nameErrorsAll env es

end

theorem Expr.nameErrorsAll_eq_flatMap (env : Env) (es : List Expr) :
    Expr.nameErrorsAll env es = es.flatMap (Expr.nameErrors env) := by
  induction es with
  | nil => rfl
  | cons e es ih => simp [Expr.nameErrorsAll, ih]

end ObjectLang
