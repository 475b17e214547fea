import ObjectLang.Naming.Class

/-!
# Names of a whole program

`Program.bind` resolves the names of a program and `Program.nameErrors` lists what is wrong with
them; the tree is bound as far as possible whatever the errors.

A `Session` resolves several programs one after the other.  Each sees the classes of those before
it, and nothing else of them.
-/

namespace ObjectLang

namespace Program

variable (env : Env) (p : Program)

/-- The environment of the outermost declarations, after the classes. -/
def declEnv : Env := ClassDecl.extendAll (env.enter .empty) p.classes

/-- The environment of the program's expression. -/
def mainEnv : Env := Decl.extendAll (p.declEnv env) p.decls

/-- The environment after the program. -/
def after : Env := (p.mainEnv env).leave env

/-- Bind the names of a program in an environment. -/
def bindIn : Program → Program
  | body main => body (main.bind (mainEnv env (body main)))
  | letIn classes decls main =>
    let p := letIn classes decls main
    letIn (ClassDecl.bindAll (env.enter .empty) classes) (Decl.bindAll (p.declEnv env) decls)
      (main.bind (p.mainEnv env))

/-- What is wrong with the names of a program in an environment. -/
def nameErrorsIn : List NameError :=
  ClassDecl.nameErrorsAll (env.enter .empty) p.classes ++
    Decl.nameErrorsAll (p.declEnv env) p.decls ++ p.main.nameErrors (p.mainEnv env)

/-- Bind the names of a program. -/
def bind : Program := p.bindIn .empty

/-- What is wrong with the names of a program. -/
def nameErrors : List NameError := p.nameErrorsIn .empty

end Program

/-- The state of resolving programs one after the other. -/
structure Session where
  env : Env
  /-- The errors of the programs so far. -/
  errors : List NameError

namespace Session

/-- A session before its first program. -/
def start : Session := ⟨.empty, []⟩

/-- Resolve the next program. -/
def resolve (s : Session) (p : Program) : Program × Session :=
  (p.bindIn s.env, ⟨p.after s.env, s.errors ++ p.nameErrorsIn s.env⟩)

end Session

end ObjectLang
