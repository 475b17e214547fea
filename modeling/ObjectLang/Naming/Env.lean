import ObjectLang.Layout
import ObjectLang.Naming.Error
import ObjectLang.Scope

/-!
# Naming environments

The environment at a point of a tree: the scopes around it, the classes laid out before it and the
offset that the next local declaration will get.  Local declarations of a frame are stored
downward from `firstLocal`, below the access link and the return address, and parameters upward
from `firstParam`.
-/

namespace ObjectLang

/-- Offset of the first local declaration of a frame. -/
def firstLocal : Int := -2

/-- Offset of the first parameter of a frame. -/
def firstParam : Int := 1

/-- What names mean at a point of a tree. -/
structure Env where
  scopes : ScopeStack
  classes : ClassTable
  /-- Offset of the next local declaration. -/
  nextLocal : Int
  /-- The class whose members are being laid out. -/
  current : Option String

namespace Env

/-- The environment outside all programs. -/
def empty : Env := ⟨.empty, .empty, firstLocal, none⟩

variable (env : Env)

/-- Nesting level of the innermost scope. -/
def level : Nat := env.scopes.level

/-- Open a scope, with a frame of its own. -/
def enter (scope : Scope) : Env :=
  { env with scopes := env.scopes.push scope, nextLocal := firstLocal }

/-- Close the scopes opened since `outer`; the classes laid out meanwhile stay known. -/
def leave (outer : Env) : Env :=
  { env with scopes := env.scopes.keepOutermost outer.scopes.depth, nextLocal := outer.nextLocal }

/-- Declare a name in the innermost scope. -/
def declare (name : String) (entry : Entry) : Env :=
  match env.scopes.declare name entry with
  | .ok scopes => { env with scopes := scopes }
  | .error _ => env

/-- Declare a name in the outermost scope. -/
def declareOutermost (name : String) (entry : Entry) : Env :=
  match env.scopes.declareOutermost name entry with
  | .ok scopes => { env with scopes := scopes }
  | .error _ => env

/-- The entry of the next local declaration. -/
def localEntry (ty : Ty) : Entry := ⟨env.level, ty, env.nextLocal⟩

/-- Declare a name as the next local one. -/
def declareLocal (name : String) (ty : Ty) : Env :=
  { env.declare name (env.localEntry ty) with nextLocal := env.nextLocal - 1 }

/-- Declare parameters, the first one at the given offset. -/
def withParams (env : Env) (offset : Int) : List TypedName → Env
  | [] => env
  | p :: ps => (env.declare p.name ⟨env.level, p.ty, offset⟩).withParams (offset + 1) ps

/-- May a type mention the class? -/
def knowsClass (name : String) : Bool := env.current == some name || env.classes.contains name

/-! ### Errors -/

/-- Report a name that the innermost scope already declares. -/
def declaredTwice (kind : NameKind) (name : String) (line : SourceLine) : List NameError :=
  if (env.scopes.findInnermost? name).isSome then [⟨.declaredTwice kind name, line⟩] else []

/-- Report a class name that the outermost scope already declares. -/
def classDeclaredTwice (name : String) (line : SourceLine) : List NameError :=
  if (env.scopes.findOutermost? name).isSome then [⟨.declaredTwice .cls name, line⟩] else []

/-- Report each mention of an unknown class in a type. -/
def typeErrors (ty : Ty) (line : SourceLine) : List NameError :=
  (ty.classes.filter fun c => !env.knowsClass c).map fun c => ⟨.unknownClass c, line⟩

/-- Report unknown classes in the parameters and the result of a routine at `line`.  A parameter
counts as being on the later one of its line and the routine's. -/
def signatureErrors (params : List TypedName) (ret : Ty) (line : SourceLine) : List NameError :=
  params.flatMap (fun p => env.typeErrors p.ty (max p.line line)) ++ env.typeErrors ret line

/-- Report parameters that are declared twice, where the first one gets the given offset. -/
def paramErrors (env : Env) (line : SourceLine) (offset : Int) : List TypedName → List NameError
  | [] => []
  | p :: ps =>
    env.declaredTwice .param p.name (max p.line line) ++
      (env.declare p.name ⟨env.level, p.ty, offset⟩).paramErrors line (offset + 1) ps

end Env

end ObjectLang
