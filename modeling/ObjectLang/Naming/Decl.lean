import ObjectLang.Naming.Use

/-!
# Declarations of names

A declaration is seen by the declarations after it and by the body they belong to: a variable not
by its own initial value, a function also by itself.  `Decl.extend` is the environment after a
declaration, `Decl.bind` the declaration with its names bound and its place assigned, and
`Decl.nameErrors` what is wrong with it.
-/

namespace ObjectLang

/-- The environment after a declaration. -/
def Decl.extend (env : Env) : Decl → Env
  | .var v => env.declareLocal v.name v.ty
  | .fn f => env.declareLocal f.name (.arrow f.signature)

/-- The environment after several declarations. -/
def Decl.extendAll (env : Env) (ds : List Decl) : Env := ds.foldl Decl.extend env

/-- The environment of a routine's local declarations: a scope with its parameters. -/
def Env.enterRoutine (env : Env) (params : List TypedName) : Env :=
  (env.enter .empty).withParams firstParam params

/-- Assign places to parameters, the first one at the given offset. -/
def placeParams (offset : Int) : List TypedName → List TypedName
  | [] => []
  | p :: ps => { p with offset := some offset } :: placeParams (offset + 1) ps

mutual

/-- Bind the names of a declaration and assign it its place. -/
def Decl.bind (env : Env) : Decl → Decl
  | .var v => .var { v with init := v.init.bind env, offset := some env.nextLocal }
  | .fn f =>
    .fn { f.bindInner (Decl.extend env (.fn f)) with offset := some env.nextLocal }

/-- Bind the names inside a routine, in the environment around it. -/
def Routine.bindInner (env : Env) : Routine → Routine
  | ⟨name, params, ret, decls, body, line, offset⟩ =>
    let inner := env.enterRoutine params
    { name, ret, line, offset
      params := placeParams firstParam params
      decls := Decl.bindAll inner decls
      body := body.bind (Decl.extendAll inner decls) }

/-- Bind the names of declarations, each seen by those after it. -/
def Decl.bindAll (env : Env) : List Decl → List Decl
  | [] => []
  | d :: ds => d.bind env :: Decl.bindAll (d.extend env) ds

end

mutual

/-- What is wrong with the names of a declaration. -/
def Decl.nameErrors (env : Env) : Decl → List NameError
  | .var v =>
    env.typeErrors v.ty v.line ++ v.init.nameErrors env ++ env.declaredTwice .var v.name v.line
  | .fn f =>
    env.signatureErrors f.params f.ret f.line ++ env.declaredTwice .fn f.name f.line ++
      f.innerErrors (Decl.extend env (.fn f))

/-- What is wrong with the names inside a routine. -/
def Routine.innerErrors (env : Env) : Routine → List NameError
  | ⟨_, params, _, decls, body, line, _⟩ =>
    let inner := env.enterRoutine params
    (env.enter .empty).paramErrors line firstParam params ++ Decl.nameErrorsAll inner decls ++
      body.nameErrors (Decl.extendAll inner decls)

/-- What is wrong with the names of several declarations. -/
def Decl.nameErrorsAll (env : Env) : List Decl → List NameError
  | [] => []
  | d :: ds => d.nameErrors env ++ Decl.nameErrorsAll (d.extend env) ds

end

end ObjectLang
