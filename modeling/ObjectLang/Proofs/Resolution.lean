import ObjectLang.Proofs.Scopes
import ObjectLang.Proofs.Tables

/-!
# Name resolution in one pass

`Program.bind`, `Program.nameErrors` and the environments that they use are functions of the tree.
Name resolution can also be done in one pass over the tree that keeps a single state, a `Session`:
scopes are opened and closed in it, offsets counted, classes entered and errors added as the pass
comes to them.  Here is this pass, and both ways of resolving names agree (`Program.resolve_eq`).

What is opened has to be closed again.  A part of the tree with a scope of its own puts the scopes
and the offset back as they were before it, whatever has been declared inside (`Resolution.within`).
-/

namespace ObjectLang

/-- A part of a pass: it has a result and changes the state of the session. -/
abbrev Resolution := StateM Session

namespace Resolution

variable {α β : Type}

/-- Add errors. -/
def report (errors : List NameError) : Resolution Unit :=
  modify fun s => { s with errors := s.errors ++ errors }

/-- Change the environment. -/
def update (f : Env → Env) : Resolution Unit := modify fun s => { s with env := f s.env }

/-- Report what is wrong in the environment as it is now. -/
def check (errors : Env → List NameError) : Resolution Unit := do
  report (errors (← get).env)

/-- Go through a part of the tree in a scope of its own, with its own offsets. -/
def within (scope : Scope) (part : Resolution α) : Resolution α := do
  let outer := (← get).env
  update (·.enter scope)
  let result ← part
  update (·.leave outer)
  return result

/-- Take the next place among the local declarations. -/
def takeLocal (ty : Ty) : Resolution Entry := do
  let entry := (← get).env.localEntry ty
  update fun env => { env with nextLocal := env.nextLocal - 1 }
  return entry

/-- Declare a name in the innermost scope, and report it if it is declared there. -/
def declare (kind : NameKind) (name : String) (line : SourceLine) (entry : Entry) :
    Resolution Unit := do
  check (·.declaredTwice kind name line)
  update (·.declare name entry)

/-- Declare parameters, the first one at the given offset, and assign them their places. -/
def declareParams (line : SourceLine) (offset : Int) :
    List TypedName → Resolution (List TypedName)
  | [] => return []
  | p :: ps => do
    declare .param p.name (max p.line line) ⟨(← get).env.level, p.ty, offset⟩
    return { p with offset := some offset } :: (← declareParams line (offset + 1) ps)

variable (s : Session)

theorem bind_apply (x : Resolution α) (f : α → Resolution β) :
    (x >>= f) s = f (x s).1 (x s).2 := rfl

theorem pure_apply (a : α) : (pure a : Resolution α) s = (a, s) := rfl

theorem get_apply : (get : Resolution Session) s = (s, s) := rfl

theorem report_apply (errors : List NameError) :
    report errors s = ((), ⟨s.env, s.errors ++ errors⟩) := rfl

theorem update_apply (f : Env → Env) : update f s = ((), ⟨f s.env, s.errors⟩) := rfl

theorem check_apply (errors : Env → List NameError) :
    check errors s = ((), ⟨s.env, s.errors ++ errors s.env⟩) := rfl

theorem within_apply (scope : Scope) (part : Resolution α) :
    within scope part s =
      ((part ⟨s.env.enter scope, s.errors⟩).1,
        ⟨(part ⟨s.env.enter scope, s.errors⟩).2.env.leave s.env,
          (part ⟨s.env.enter scope, s.errors⟩).2.errors⟩) := rfl

theorem takeLocal_apply (ty : Ty) :
    takeLocal ty s =
      (s.env.localEntry ty, ⟨{ s.env with nextLocal := s.env.nextLocal - 1 }, s.errors⟩) := rfl

theorem declare_apply (kind : NameKind) (name : String) (line : SourceLine) (entry : Entry) :
    declare kind name line entry s =
      ((), ⟨s.env.declare name entry, s.errors ++ s.env.declaredTwice kind name line⟩) := rfl

theorem declareParams_apply (line : SourceLine) (offset : Int) (params : List TypedName) :
    declareParams line offset params s =
      (placeParams offset params, ⟨s.env.withParams offset params,
        s.errors ++ s.env.paramErrors line offset params⟩) := by
  induction params generalizing offset s with
  | nil => simp only [declareParams, pure_apply, placeParams, Env.withParams, Env.paramErrors,
      List.append_nil]
  | cons p ps ih =>
    simp only [declareParams, bind_apply, pure_apply, get_apply, declare_apply, ih, placeParams,
      Env.withParams, Env.paramErrors, List.append_assoc]

end Resolution

open Resolution

/-! ### The pass -/

mutual

/-- Resolve the names of an expression. -/
def Expr.resolve : Expr → Resolution Expr
  | .int line n => return .int line n
  | .bool line b => return .bool line b
  | .null line => return .null line
  | .arith line op l r => return .arith line op (← l.resolve) (← r.resolve)
  | .compare line op l r => return .compare line op (← l.resolve) (← r.resolve)
  | .logic line op l r => return .logic line op (← l.resolve) (← r.resolve)
  | .not line e => return .not line (← e.resolve)
  | .cond line c t f => return .cond line (← c.resolve) (← t.resolve) (← f.resolve)
  | .print line e => return .print line (← e.resolve)
  | .ident line name _ => do
    check (·.useErrors .var name line)
    return .ident line name ((← get).env.binding? name)
  | .call line name args _ => do
    check (·.useErrors .fn name line)
    let binding := (← get).env.binding? name
    return .call line name (← Expr.resolveAll args) binding
  | .send line receiver method args _ => do
    check (·.sendErrors receiver method line)
    let binding := (← get).env.methodBinding? receiver method
    return .send line receiver method (← Expr.resolveAll args) binding
  | .new line cls args _ => do
    check (·.newErrors cls line)
    let entry := (← get).env.classes.entry? cls
    return .new line cls (← Expr.resolveAll args) entry

/-- `Expr.resolve` on several expressions. -/
def Expr.resolveAll : List Expr → Resolution (List Expr)
  | [] => return []
  | e :: es => return (← e.resolve) :: (← Expr.resolveAll es)

end

mutual

/-- Resolve the names of a declaration and declare it. -/
def Decl.resolve : Decl → Resolution Decl
  | .var v => do
    check (·.typeErrors v.ty v.line)
    -- the initial value does not see the variable
    let init ← v.init.resolve
    let entry ← takeLocal v.ty
    declare .var v.name v.line entry
    return .var { v with init, offset := some entry.offset }
  | .fn f => do
    check (·.signatureErrors f.params f.ret f.line)
    let entry ← takeLocal (.arrow f.signature)
    -- declared before its inside is resolved, so that it can call itself
    declare .fn f.name f.line entry
    return .fn { (← f.resolve) with offset := some entry.offset }

/-- Resolve the names inside a routine. -/
def Routine.resolve : Routine → Resolution Routine
  | ⟨name, params, ret, decls, body, line, offset⟩ => within .empty do
    let params ← declareParams line firstParam params
    let decls ← Decl.resolveAll decls
    let body ← body.resolve
    return ⟨name, params, ret, decls, body, line, offset⟩

/-- `Decl.resolve` on several declarations. -/
def Decl.resolveAll : List Decl → Resolution (List Decl)
  | [] => return []
  | d :: ds => return (← d.resolve) :: (← Decl.resolveAll ds)

end

/-- `Routine.resolve` on several routines. -/
def Routine.resolveAll : List Routine → Resolution (List Routine)
  | [] => return []
  | m :: ms => return (← m.resolve) :: (← Routine.resolveAll ms)

/-- Check the members of a class, which may mention the class itself. -/
def ClassDecl.checkMembers (c : ClassDecl) : Resolution Unit := do
  update ({ · with current := some c.name })
  let env := (← get).env
  check c.superclassErrors
  check (·.fieldErrors c.name (innerLevel env) [] (c.inherited env) c.fields)
  check (·.methodErrors c.name (innerLevel env) (c.fields.map (·.name)) (c.fieldLayout env)
    c.methods)
  update ({ · with current := none })

/-- Declare a class with the given layout in the outermost scope and make it known. -/
def ClassDecl.declare (c : ClassDecl) (layout : Layout) : Resolution Entry := do
  let entry ← takeLocal (.shape layout.shape)
  check (·.classDeclaredTwice c.name c.line)
  update (·.declareOutermost c.name entry)
  update fun env => { env with classes := env.classes.insert c.name layout entry }
  return entry

/-- Resolve the names of a class, and those of its methods in a scope with all of its members. -/
def ClassDecl.resolve (c : ClassDecl) : Resolution ClassDecl := do
  let env := (← get).env
  c.checkMembers
  -- known before its methods are resolved, so that they can make objects of the class
  let entry ← c.declare (c.layout env)
  let methods ← within (c.layout env).members
    (Routine.resolveAll ((c.fieldLayout env).placeMethods (innerLevel env) c.methods))
  return { c with
    fields := (c.inherited env).placeFields (innerLevel env) c.fields
    methods
    entry := some entry
    superEntry := (c.superclass.bind env.classes.entry?).or c.superEntry }

/-- `ClassDecl.resolve` on several classes. -/
def ClassDecl.resolveAll : List ClassDecl → Resolution (List ClassDecl)
  | [] => return []
  | c :: cs => return (← c.resolve) :: (← ClassDecl.resolveAll cs)

/-- Resolve the names of a program. -/
def Program.resolve : Program → Resolution Program
  | .body main => within .empty do return .body (← main.resolve)
  | .letIn classes decls main => within .empty do
    return .letIn (← ClassDecl.resolveAll classes) (← Decl.resolveAll decls) (← main.resolve)

/-! ### Expressions -/

/-- The pass binds the names of an expression and adds its errors, and changes nothing else. -/
def Expr.Resolves (e : Expr) : Prop :=
  ∀ s : Session, e.resolve s = (e.bind s.env, ⟨s.env, s.errors ++ e.nameErrors s.env⟩)

theorem Expr.resolveAll_eq {es : List Expr} (hes : ∀ e ∈ es, e.Resolves) (s : Session) :
    Expr.resolveAll es s =
      (Expr.bindAll s.env es, ⟨s.env, s.errors ++ Expr.nameErrorsAll s.env es⟩) := by
  induction es generalizing s with
  | nil => simp only [resolveAll, pure_apply, bindAll, nameErrorsAll, List.append_nil]
  | cons e es ih =>
    rw [List.forall_mem_cons] at hes
    simp only [resolveAll, bind_apply, pure_apply, hes.1 s, ih hes.2, bindAll, nameErrorsAll,
      List.append_assoc]

theorem Expr.resolves (e : Expr) : e.Resolves := by
  induction e using Expr.ind with
  | int | bool | null =>
    intro s
    simp only [resolve, pure_apply, bind, nameErrors, List.append_nil]
  | arith line op l r hl hr | compare line op l r hl hr | logic line op l r hl hr =>
    intro s
    simp only [resolve, bind_apply, pure_apply, hl s, hr ⟨s.env, _⟩, bind, nameErrors,
      List.append_assoc]
  | not line e he | print line e he =>
    intro s
    simp only [resolve, bind_apply, pure_apply, he s, bind, nameErrors]
  | cond line c t f hc ht hf =>
    intro s
    simp only [resolve, bind_apply, pure_apply, hc s, ht ⟨s.env, _⟩, hf ⟨s.env, _⟩, bind,
      nameErrors, List.append_assoc]
  | ident line name b =>
    intro s
    simp only [resolve, bind_apply, pure_apply, get_apply, check_apply, bind, nameErrors]
  | call line name args b hargs | send line receiver method args b hargs
  | new line cls args entry hargs =>
    intro s
    simp only [resolve, bind_apply, pure_apply, get_apply, check_apply, resolveAll_eq hargs, bind,
      nameErrors, List.append_assoc]

/-! ### Scopes are closed again -/

namespace Env

/-- The environment is the outer one with one more scope, in which there may be any offset. -/
def Inside (env outer : Env) : Prop :=
  ∃ scope nextLocal, env = { outer with scopes := outer.scopes.push scope, nextLocal }

theorem declare_nextLocal (env : Env) (nextLocal : Int) (name : String) (entry : Entry) :
    declare { env with nextLocal } name entry = { env.declare name entry with nextLocal } := by
  unfold declare
  cases env.scopes.declare name entry <;> rfl

theorem declareOutermost_with (env : Env) (nextLocal : Int) (current : Option String)
    (name : String) (entry : Entry) :
    declareOutermost { env with nextLocal, current } name entry =
      { env.declareOutermost name entry with nextLocal, current } := by
  unfold declareOutermost
  cases env.scopes.declareOutermost name entry <;> rfl

theorem classes_declareOutermost (env : Env) (name : String) (entry : Entry) :
    (env.declareOutermost name entry).classes = env.classes := by
  unfold declareOutermost
  cases env.scopes.declareOutermost name entry <;> rfl

namespace Inside

variable {env outer : Env}

theorem enter (outer : Env) (scope : Scope) : (outer.enter scope).Inside outer :=
  ⟨scope, firstLocal, rfl⟩

theorem declare (h : env.Inside outer) (name : String) (entry : Entry) :
    (env.declare name entry).Inside outer := by
  obtain ⟨scope, nextLocal, rfl⟩ := h
  exact ⟨scope.insert name entry, nextLocal, rfl⟩

theorem declareLocal (h : env.Inside outer) (name : String) (ty : Ty) :
    (env.declareLocal name ty).Inside outer := by
  obtain ⟨scope, nextLocal, rfl⟩ := h
  exact ⟨_, nextLocal - 1, rfl⟩

theorem withParams (h : env.Inside outer) (offset : Int) (params : List TypedName) :
    (env.withParams offset params).Inside outer := by
  induction params generalizing env offset with
  | nil => exact h
  | cons p ps ih => exact ih (h.declare _ _) _

theorem extendAll (h : env.Inside outer) (ds : List Decl) :
    (Decl.extendAll env ds).Inside outer := by
  induction ds generalizing env with
  | nil => exact h
  | cons d ds ih =>
    refine ih ?_
    cases d <;> exact h.declareLocal _ _

/-- Closing the scope gives back the environment as it was before. -/
theorem leave (h : env.Inside outer) : env.leave outer = outer := by
  obtain ⟨scope, nextLocal, rfl⟩ := h
  have hscopes : (outer.scopes.push scope).keepOutermost outer.scopes.depth = outer.scopes := by
    simp [ScopeStack.keepOutermost, ScopeStack.push, ScopeStack.depth]
  rw [Env.leave, hscopes]

end Inside

end Env

/-! ### Declarations -/

/-- The pass binds the names of a declaration, adds its errors, and declares it. -/
def Decl.Resolves (d : Decl) : Prop :=
  ∀ s : Session, d.resolve s = (d.bind s.env, ⟨d.extend s.env, s.errors ++ d.nameErrors s.env⟩)

theorem Decl.resolveAll_eq {ds : List Decl} (hds : ∀ d ∈ ds, d.Resolves) (s : Session) :
    Decl.resolveAll ds s =
      (Decl.bindAll s.env ds,
        ⟨Decl.extendAll s.env ds, s.errors ++ Decl.nameErrorsAll s.env ds⟩) := by
  induction ds generalizing s with
  | nil => simp only [resolveAll, pure_apply, bindAll, extendAll, List.foldl_nil, nameErrorsAll,
      List.append_nil]
  | cons d ds ih =>
    rw [List.forall_mem_cons] at hds
    simp only [resolveAll, bind_apply, pure_apply, hds.1 s, ih hds.2, bindAll, extendAll,
      List.foldl_cons, nameErrorsAll, List.append_assoc]

theorem Routine.resolve_eq_of {f : Routine} (hds : ∀ d ∈ f.decls, d.Resolves) (s : Session) :
    f.resolve s = (f.bindInner s.env, ⟨s.env, s.errors ++ f.innerErrors s.env⟩) := by
  obtain ⟨name, params, ret, decls, body, line, offset⟩ := f
  have hleave : (Decl.extendAll ((s.env.enter .empty).withParams firstParam params) decls).leave
      s.env = s.env := (((Env.Inside.enter s.env .empty).withParams _ _).extendAll decls).leave
  simp only [resolve, within_apply, bind_apply, pure_apply, declareParams_apply,
    Decl.resolveAll_eq hds, body.resolves _, hleave, bindInner, innerErrors, Env.enterRoutine,
    List.append_assoc]

theorem Decl.resolves (d : Decl) : d.Resolves := by
  induction d using Decl.ind with
  | var v =>
    intro s
    simp only [resolve, bind_apply, pure_apply, check_apply, v.init.resolves _, takeLocal_apply,
      declare_apply, Env.declare_nextLocal, bind, nameErrors, List.append_assoc]
    rfl
  | fn f hf =>
    intro s
    simp only [resolve, bind_apply, pure_apply, check_apply, takeLocal_apply, declare_apply,
      Env.declare_nextLocal, Routine.resolve_eq_of hf, bind, nameErrors, List.append_assoc]
    rfl

theorem Routine.resolve_eq (f : Routine) (s : Session) :
    f.resolve s = (f.bindInner s.env, ⟨s.env, s.errors ++ f.innerErrors s.env⟩) :=
  f.resolve_eq_of (fun d _ => d.resolves) s

theorem Routine.resolveAll_eq (ms : List Routine) (s : Session) :
    Routine.resolveAll ms s = (ms.map (Routine.bindInner s.env),
      ⟨s.env, s.errors ++ ms.flatMap (Routine.innerErrors s.env)⟩) := by
  induction ms generalizing s with
  | nil => simp only [resolveAll, pure_apply, List.map_nil, List.flatMap_nil, List.append_nil]
  | cons m ms ih =>
    simp only [resolveAll, bind_apply, pure_apply, m.resolve_eq, ih, List.map_cons,
      List.flatMap_cons, List.append_assoc]

/-! ### Classes and programs -/

theorem Routine.innerErrors_offset (env : Env) (f : Routine) (offset : Option Int) :
    Routine.innerErrors env { f with offset := offset } = f.innerErrors env := by
  cases f
  rfl

theorem Layout.innerErrors_placeMethods (l : Layout) (level : Nat) (env : Env)
    (ms : List Routine) :
    (l.placeMethods level ms).flatMap (Routine.innerErrors env) =
      ms.flatMap (Routine.innerErrors env) := by
  induction ms generalizing l with
  | nil => rfl
  | cons m ms ih =>
    rw [placeMethods, List.flatMap_cons, List.flatMap_cons, Routine.innerErrors_offset, ih]

namespace ClassDecl

variable (c : ClassDecl) (s : Session)

theorem checkMembers_eq : c.checkMembers s =
    ((), ⟨{ s.env with current := none },
      s.errors ++ (c.superclassErrors s.env ++ c.memberErrors s.env)⟩) := by
  simp only [checkMembers, bind_apply, get_apply, update_apply, check_apply, List.append_assoc,
    memberErrors]
  rfl

theorem declare_eq (env : Env) (errors : List NameError) :
    c.declare (c.layout env) ⟨{ env with current := none }, errors⟩ =
      (c.ownEntry env, ⟨c.extend env, errors ++ env.classDeclaredTwice c.name c.line⟩) := by
  simp only [declare, bind_apply, pure_apply, takeLocal_apply, check_apply, update_apply,
    Env.declareOutermost_with, Env.classes_declareOutermost]
  rfl

/-- The pass binds the names of a class, adds its errors, and makes the class known. -/
theorem resolve_eq :
    c.resolve s = (c.bind s.env, ⟨c.extend s.env, s.errors ++ c.nameErrors s.env⟩) := by
  have hleave := (Env.Inside.enter (c.extend s.env) (c.layout s.env).members).leave
  simp only [resolve, bind_apply, pure_apply, get_apply, checkMembers_eq, declare_eq, within_apply,
    Routine.resolveAll_eq, Layout.innerErrors_placeMethods, hleave, nameErrors, List.append_assoc]
  rfl

theorem resolveAll_eq (cs : List ClassDecl) (s : Session) :
    resolveAll cs s =
      (bindAll s.env cs, ⟨extendAll s.env cs, s.errors ++ nameErrorsAll s.env cs⟩) := by
  induction cs generalizing s with
  | nil => simp only [resolveAll, pure_apply, bindAll, extendAll, List.foldl_nil, nameErrorsAll,
      List.append_nil]
  | cons c cs ih =>
    simp only [resolveAll, bind_apply, pure_apply, resolve_eq, ih, bindAll, extendAll,
      List.foldl_cons, nameErrorsAll, List.append_assoc]

end ClassDecl

/-- **Going through a program in one pass gives the same tree, the same errors and the same state
as binding names and collecting errors apart.** -/
theorem Program.resolve_eq (p : Program) (s : Session) : p.resolve s = s.resolve p := by
  cases p with
  | body main =>
    simp only [resolve, within_apply, bind_apply, pure_apply, main.resolves _]
    rfl
  | letIn classes decls main =>
    have hdecls := Decl.resolveAll_eq fun d (_ : d ∈ decls) => d.resolves
    simp only [resolve, within_apply, bind_apply, pure_apply, ClassDecl.resolveAll_eq, hdecls,
      main.resolves _, Session.resolve, bindIn, after, nameErrorsIn, declEnv, mainEnv,
      Program.classes, Program.decls, Program.main, List.append_assoc]

end ObjectLang
