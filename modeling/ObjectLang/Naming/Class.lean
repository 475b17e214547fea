import ObjectLang.Naming.Decl

/-!
# Classes

A class is laid out on top of its superclass, then declared in the outermost scope, and only then
are its methods resolved, in a scope with all of its members.  While it is laid out, types may
already mention the class itself.
-/

namespace ObjectLang

/-! ### Members -/

/-- Add fields to a layout. -/
def Layout.addFields (l : Layout) (level : Nat) (fields : List TypedName) : Layout :=
  fields.foldl (fun l f => l.addField f.name f.ty level) l

/-- Add methods to a layout. -/
def Layout.addMethods (l : Layout) (level : Nat) (methods : List Routine) : Layout :=
  methods.foldl (fun l m => l.addMethod m.name m.signature level) l

/-- Assign fields their places in a layout to which they are added. -/
def Layout.placeFields (l : Layout) (level : Nat) : List TypedName → List TypedName
  | [] => []
  | f :: fs =>
    { f with offset := some (l.fieldOffset f.name) } ::
      (l.addField f.name f.ty level).placeFields level fs

/-- Assign methods their places in a layout to which they are added. -/
def Layout.placeMethods (l : Layout) (level : Nat) : List Routine → List Routine
  | [] => []
  | m :: ms =>
    { m with offset := some (l.methodOffset m.name) } ::
      (l.addMethod m.name m.signature level).placeMethods level ms

/-- Report a member whose name is among those the class has declared. -/
def memberDeclaredTwice (declared : List String) (kind : NameKind) (name : String)
    (line : SourceLine) : List NameError :=
  if declared.contains name then [⟨.declaredTwice kind name, line⟩] else []

/-- Report a member that does not fit in with those before it. -/
def placementErrors (placement : Placement) (kind : NameKind) (name cls : String)
    (line : SourceLine) : List NameError :=
  if placement = .clash then [⟨.kindClash kind name cls, line⟩] else []

/-- What is wrong with fields of the class `cls` that are added to a layout. -/
def Env.fieldErrors (env : Env) (cls : String) (level : Nat) (declared : List String)
    (l : Layout) : List TypedName → List NameError
  | [] => []
  | f :: fs =>
    env.typeErrors f.ty f.line ++ memberDeclaredTwice declared .field f.name f.line ++
      placementErrors (l.fieldPlacement f.name) .field f.name cls f.line ++
      env.fieldErrors cls level (f.name :: declared) (l.addField f.name f.ty level) fs

/-- What is wrong with methods of the class `cls` that are added to a layout. -/
def Env.methodErrors (env : Env) (cls : String) (level : Nat) (declared : List String)
    (l : Layout) : List Routine → List NameError
  | [] => []
  | m :: ms =>
    env.signatureErrors m.params m.ret m.line ++
      memberDeclaredTwice declared .method m.name m.line ++
      placementErrors (l.methodPlacement m.name) .method m.name cls m.line ++
      env.methodErrors cls level (m.name :: declared) (l.addMethod m.name m.signature level) ms

namespace ClassDecl

variable (env : Env) (c : ClassDecl)

/-- Nesting level of the members of a class declared in `env`. -/
def innerLevel : Nat := env.level + 1

/-- The layout that the class starts from. -/
def inherited : Layout := (c.superclass.bind env.classes.layout?).getD .empty

/-- The layout with the fields of the class. -/
def fieldLayout : Layout := (c.inherited env).addFields (innerLevel env) c.fields

/-- The layout of the class. -/
def layout : Layout := (c.fieldLayout env).addMethods (innerLevel env) c.methods

/-- The entry of the class. -/
def ownEntry : Entry := env.localEntry (.shape (c.layout env).shape)

/-- The environment after the class. -/
def extend : Env :=
  { env.declareOutermost c.name (c.ownEntry env) with
    classes := env.classes.insert c.name (c.layout env) (c.ownEntry env)
    nextLocal := env.nextLocal - 1
    current := none }

/-- The environment around the methods of the class. -/
def methodEnv : Env := (c.extend env).enter (c.layout env).members

/-- Bind the names of a class and assign its members their places.  The entry of the superclass is
kept as it is if the superclass is not known. -/
def bind : ClassDecl :=
  { c with
    fields := (c.inherited env).placeFields (innerLevel env) c.fields
    methods := ((c.fieldLayout env).placeMethods (innerLevel env) c.methods).map
      (Routine.bindInner (c.methodEnv env))
    entry := some (c.ownEntry env)
    superEntry := (c.superclass.bind env.classes.entry?).or c.superEntry }

/-- Report a superclass that is not known. -/
def superclassErrors : List NameError :=
  match c.superclass with
  | none => []
  | some superclass =>
    if env.classes.contains superclass then []
    else [⟨.unknownSuperclass superclass, c.line⟩]

/-- What is wrong with the members of a class. -/
def memberErrors : List NameError :=
  let env' := { env with current := some c.name }
  env'.fieldErrors c.name (innerLevel env) [] (c.inherited env) c.fields ++
    env'.methodErrors c.name (innerLevel env) (c.fields.map (·.name)) (c.fieldLayout env)
      c.methods

/-- What is wrong with the names of a class. -/
def nameErrors : List NameError :=
  c.superclassErrors env ++ c.memberErrors env ++ env.classDeclaredTwice c.name c.line ++
    c.methods.flatMap (Routine.innerErrors (c.methodEnv env))

/-- The environment after several classes. -/
def extendAll (env : Env) (cs : List ClassDecl) : Env := cs.foldl extend env

/-- Bind the names of classes, each seen by those after it. -/
def bindAll (env : Env) : List ClassDecl → List ClassDecl
  | [] => []
  | c :: cs => c.bind env :: bindAll (c.extend env) cs

/-- What is wrong with the names of several classes. -/
def nameErrorsAll (env : Env) : List ClassDecl → List NameError
  | [] => []
  | c :: cs => c.nameErrors env ++ nameErrorsAll (c.extend env) cs

end ClassDecl

end ObjectLang
