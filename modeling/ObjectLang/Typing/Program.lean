import ObjectLang.Typing.Expr

/-!
# Types of a whole program

Declarations are checked one by one, each contributing its own errors, which depend on nothing but
the declaration and the hierarchy.  A declaration with an unbound name in it is passed over.  The
type of a program is that of its expression.
-/

namespace ObjectLang

/-- The error in an outcome; an unbound name counts as none. -/
def reported {α : Type} : Except Untyped α → List TypeError
  | .error (.wrong e) => [e]
  | .error .unbound | .ok _ => []

/-- The initial value of a variable has to be of its type. -/
def Variable.check (h : Hierarchy) (v : Variable) : Except Untyped Unit := do
  let found ← v.init.infer h
  if h.isSubtype found v.ty then .ok ()
  else illTyped v.line (.initNotOfType v.name v.ty found)

/-- The body of a routine has to be of its result type. -/
def checkBody (h : Hierarchy) (name : String) (line : SourceLine) (ret : Ty) (body : Expr) :
    Except Untyped Unit := do
  let found ← body.infer h
  if h.isSubtype found ret then .ok () else illTyped line (.bodyNotOfType name ret found)

mutual

/-- The type errors of a declaration. -/
def Decl.typeErrors (h : Hierarchy) : Decl → List TypeError
  | .var v => reported (v.check h)
  | .fn f => f.typeErrors h

/-- The type errors of a routine: those of its local declarations, then its own. -/
def Routine.typeErrors (h : Hierarchy) : Routine → List TypeError
  | ⟨name, _, ret, decls, body, line, _⟩ =>
    Decl.typeErrorsAll h decls ++ reported (checkBody h name line ret body)

/-- The type errors of several declarations. -/
def Decl.typeErrorsAll (h : Hierarchy) : List Decl → List TypeError
  | [] => []
  | d :: ds => d.typeErrors h ++ Decl.typeErrorsAll h ds

end

theorem Decl.typeErrorsAll_eq_flatMap (h : Hierarchy) (ds : List Decl) :
    Decl.typeErrorsAll h ds = ds.flatMap (Decl.typeErrors h) := by
  induction ds with
  | nil => rfl
  | cons d ds ih => simp [Decl.typeErrorsAll, ih]

namespace ClassDecl

/-- Every inherited field has to keep a subtype of its type; the first one has the given index. -/
def checkFields (h : Hierarchy) (c : ClassDecl) :
    Nat → List Ty → List Ty → Except Untyped Unit
  | index, expected :: inherited, found :: own =>
    if h.isSubtype found expected then c.checkFields h (index + 1) inherited own
    else illTyped c.line (.fieldNotSubtype c.name index expected found)
  | _, _, _ => .ok ()

/-- Every inherited method has to keep a subtype of its type; the first one has the given
index. -/
def checkMethods (h : Hierarchy) (c : ClassDecl) :
    Nat → List Signature → List Signature → Except Untyped Unit
  | index, expected :: inherited, found :: own =>
    if h.signatureSubtype found expected then c.checkMethods h (index + 1) inherited own
    else illTyped c.line (.methodNotSubtype c.name index (.arrow expected) (.arrow found))
  | _, _, _ => .ok ()

/-- A class has to be usable in the place of its superclass. -/
def checkInherited (h : Hierarchy) (c : ClassDecl) : Except Untyped Unit :=
  match c.superEntry with
  | none => .ok ()
  | some superEntry => do
    let own ← bound (c.entry.bind (·.ty.shape?))
    let inherited ← bound superEntry.ty.shape?
    c.checkFields h 0 inherited.fields own.fields
    c.checkMethods h 0 inherited.methods own.methods

/-- The type errors of a class: that of its overrides, then those of its methods. -/
def typeErrors (h : Hierarchy) (c : ClassDecl) : List TypeError :=
  reported (c.checkInherited h) ++ c.methods.flatMap (Routine.typeErrors h)

end ClassDecl

namespace Program

variable (p : Program)

/-- The hierarchy of the classes whose superclass has been resolved. -/
def hierarchy : Hierarchy :=
  p.classes.foldl addClass .empty
where
  /-- Enter the edge of a class. -/
  addClass (h : Hierarchy) (c : ClassDecl) : Hierarchy :=
    match c.superclass, c.superEntry with
    | some superclass, some _ => h.extend c.name superclass
    | _, _ => h

/-- The type errors of classes and declarations. -/
def declErrors : List TypeError :=
  p.classes.flatMap (ClassDecl.typeErrors p.hierarchy) ++ Decl.typeErrorsAll p.hierarchy p.decls

/-- The type of a program, which is unknown if a name in its expression is not bound; or else all
of its type errors. -/
def check : Except (List TypeError) (Option Ty) :=
  let outcome := p.main.infer p.hierarchy
  match p.declErrors ++ reported outcome with
  | [] => .ok outcome.toOption
  | errors => .error errors

/-- All errors that the type checker reports. -/
def typeErrors : List TypeError := p.declErrors ++ reported (p.main.infer p.hierarchy)

theorem check_eq :
    p.check = if p.typeErrors = [] then .ok (p.main.infer p.hierarchy).toOption
      else .error p.typeErrors := by
  rw [check, typeErrors]
  cases p.declErrors ++ reported (p.main.infer p.hierarchy) <;> rfl

end Program

end ObjectLang
