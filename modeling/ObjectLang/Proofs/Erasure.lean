import ObjectLang.Proofs.Tables
import Mathlib.Data.List.Basic

/-!
# Erasing what name resolution writes

A tree may be resolved more than once, and may have been changed in between, so name resolution
meets entries and offsets that are out of date.  `Program.erase` is the tree without any of them.

* Name resolution does not change what is left after erasing (`erase_bind`).
* It does not look at what is erased (`bind_erase`, `nameErrors_erase`), with one exception: a class
  keeps the entry of its superclass unless there is a superclass to take an entry from
  (`ClassDecl.bind_eq`).

What a class keeps it also keeps the second time, so resolving a tree once more finds the same
errors and changes nothing: `Program.resolve_idempotent`.
-/

namespace ObjectLang

mutual

/-- The expression without bindings. -/
def Expr.erase : Expr → Expr
  | .int line n => .int line n
  | .bool line b => .bool line b
  | .null line => .null line
  | .arith line op l r => .arith line op l.erase r.erase
  | .compare line op l r => .compare line op l.erase r.erase
  | .logic line op l r => .logic line op l.erase r.erase
  | .not line e => .not line e.erase
  | .cond line c t f => .cond line c.erase t.erase f.erase
  | .print line e => .print line e.erase
  | .ident line name _ => .ident line name none
  | .call line name args _ => .call line name (Expr.eraseAll args) none
  | .send line receiver method args _ => .send line receiver method (Expr.eraseAll args) none
  | .new line cls args _ => .new line cls (Expr.eraseAll args) none

/-- `Expr.erase` on several expressions. -/
def Expr.eraseAll : List Expr → List Expr
  | [] => []
  | e :: es => e.erase :: Expr.eraseAll es

end

/-- The parameter or field without its place. -/
def TypedName.erase (x : TypedName) : TypedName := { x with offset := none }

mutual

/-- The declaration without bindings and places. -/
def Decl.erase : Decl → Decl
  | .var v => .var { v with init := v.init.erase, offset := none }
  | .fn f => .fn f.erase

/-- The routine without bindings and places. -/
def Routine.erase : Routine → Routine
  | ⟨name, params, ret, decls, body, line, _⟩ =>
    { name, ret, line
      params := params.map TypedName.erase
      decls := Decl.eraseAll decls
      body := body.erase
      offset := none }

/-- `Decl.erase` on several declarations. -/
def Decl.eraseAll : List Decl → List Decl
  | [] => []
  | d :: ds => d.erase :: Decl.eraseAll ds

end

/-- The class without entries, bindings and places. -/
def ClassDecl.erase (c : ClassDecl) : ClassDecl :=
  { c with
    fields := c.fields.map TypedName.erase
    methods := c.methods.map Routine.erase
    entry := none
    superEntry := none }

/-- The program without anything that name resolution writes. -/
def Program.erase : Program → Program
  | .body main => .body main.erase
  | .letIn classes decls main =>
    .letIn (classes.map ClassDecl.erase) (Decl.eraseAll decls) main.erase

/-! ### Expressions -/

theorem Expr.eraseAll_eq_map (es : List Expr) : Expr.eraseAll es = es.map Expr.erase := by
  induction es with
  | nil => rfl
  | cons e es ih => simp [Expr.eraseAll, ih]

section Expressions

variable (env : Env)

theorem Expr.erase_bind (e : Expr) : (e.bind env).erase = e.erase := by
  induction e using Expr.ind with
  | int | bool | null | ident => simp only [Expr.bind, Expr.erase]
  | arith line op l r hl hr | compare line op l r hl hr | logic line op l r hl hr =>
    simp only [Expr.bind, Expr.erase, hl, hr]
  | not line e he | print line e he => simp only [Expr.bind, Expr.erase, he]
  | cond line c t f hc ht hf => simp only [Expr.bind, Expr.erase, hc, ht, hf]
  | call line name args b hargs | send line receiver method args b hargs
  | new line cls args entry hargs =>
    simp only [Expr.bind, Expr.erase, Expr.eraseAll_eq_map, Expr.bindAll_eq_map, List.map_map]
    congr 1
    exact List.map_congr_left hargs

theorem Expr.bind_erase (e : Expr) : e.erase.bind env = e.bind env := by
  induction e using Expr.ind with
  | int | bool | null | ident => simp only [Expr.bind, Expr.erase]
  | arith line op l r hl hr | compare line op l r hl hr | logic line op l r hl hr =>
    simp only [Expr.bind, Expr.erase, hl, hr]
  | not line e he | print line e he => simp only [Expr.bind, Expr.erase, he]
  | cond line c t f hc ht hf => simp only [Expr.bind, Expr.erase, hc, ht, hf]
  | call line name args b hargs | send line receiver method args b hargs
  | new line cls args entry hargs =>
    simp only [Expr.bind, Expr.erase, Expr.eraseAll_eq_map, Expr.bindAll_eq_map, List.map_map]
    congr 1
    exact List.map_congr_left hargs

theorem Expr.nameErrors_erase (e : Expr) : e.erase.nameErrors env = e.nameErrors env := by
  induction e using Expr.ind with
  | int | bool | null | ident => simp only [Expr.nameErrors, Expr.erase]
  | arith line op l r hl hr | compare line op l r hl hr | logic line op l r hl hr =>
    simp only [Expr.nameErrors, Expr.erase, hl, hr]
  | not line e he | print line e he => simp only [Expr.nameErrors, Expr.erase, he]
  | cond line c t f hc ht hf => simp only [Expr.nameErrors, Expr.erase, hc, ht, hf]
  | call line name args b hargs | send line receiver method args b hargs
  | new line cls args entry hargs =>
    simp only [Expr.nameErrors, Expr.erase, Expr.eraseAll_eq_map, Expr.nameErrorsAll_eq_flatMap,
      List.flatMap_map]
    congr 1
    exact List.flatMap_congr hargs

end Expressions

/-! ### Declarations -/

theorem map_ty_erase (params : List TypedName) :
    (params.map TypedName.erase).map (·.ty) = params.map (·.ty) := by
  rw [List.map_map]
  rfl

@[simp] theorem Routine.signature_erase (f : Routine) : f.erase.signature = f.signature := by
  obtain ⟨name, params, ret, decls, body, line, offset⟩ := f
  simp only [Routine.erase, Routine.signature, map_ty_erase]

@[simp] theorem Routine.name_erase (f : Routine) : f.erase.name = f.name := by
  cases f
  rfl

theorem map_erase_placeParams (offset : Int) (params : List TypedName) :
    (placeParams offset params).map TypedName.erase = params.map TypedName.erase := by
  induction params generalizing offset with
  | nil => rfl
  | cons p ps ih =>
    rw [placeParams, List.map_cons, List.map_cons, ih]
    rfl

theorem placeParams_erase (offset : Int) (params : List TypedName) :
    placeParams offset (params.map TypedName.erase) = placeParams offset params := by
  induction params generalizing offset with
  | nil => rfl
  | cons p ps ih =>
    rw [List.map_cons, placeParams, placeParams, ih]
    rfl

namespace Env

variable (env : Env)

theorem withParams_erase (offset : Int) (params : List TypedName) :
    env.withParams offset (params.map TypedName.erase) = env.withParams offset params := by
  induction params generalizing env offset with
  | nil => rfl
  | cons p ps ih => exact ih _ _

theorem paramErrors_erase (line : SourceLine) (offset : Int) (params : List TypedName) :
    env.paramErrors line offset (params.map TypedName.erase) =
      env.paramErrors line offset params := by
  induction params generalizing env offset with
  | nil => rfl
  | cons p ps ih =>
    rw [List.map_cons, paramErrors, paramErrors, ih]
    rfl

theorem signatureErrors_erase (params : List TypedName) (ret : Ty) (line : SourceLine) :
    env.signatureErrors (params.map TypedName.erase) ret line =
      env.signatureErrors params ret line := by
  rw [signatureErrors, List.flatMap_map]
  rfl

end Env

theorem Decl.extend_erase (env : Env) (d : Decl) : d.erase.extend env = d.extend env := by
  cases d with
  | var v => rfl
  | fn f => simp only [Decl.erase, Decl.extend, Routine.name_erase, Routine.signature_erase]

theorem Decl.extendAll_erase (env : Env) (ds : List Decl) :
    Decl.extendAll env (Decl.eraseAll ds) = Decl.extendAll env ds := by
  induction ds generalizing env with
  | nil => rfl
  | cons d ds ih =>
    rw [Decl.eraseAll, Decl.extendAll, List.foldl_cons, Decl.extend_erase]
    exact ih _

/-- Name resolution of a declaration neither looks at what is erased nor changes anything else. -/
structure Decl.Forgets (d : Decl) : Prop where
  erase_bind : ∀ env, (d.bind env).erase = d.erase
  bind_erase : ∀ env, d.erase.bind env = d.bind env
  nameErrors_erase : ∀ env, d.erase.nameErrors env = d.nameErrors env

namespace Decl

variable {ds : List Decl} (hs : ∀ d ∈ ds, d.Forgets)
include hs

theorem eraseAll_bindAll (env : Env) : eraseAll (bindAll env ds) = eraseAll ds := by
  induction ds generalizing env with
  | nil => rfl
  | cons d ds ih =>
    rw [List.forall_mem_cons] at hs
    rw [bindAll, eraseAll, eraseAll, hs.1.erase_bind, ih hs.2]

theorem bindAll_eraseAll (env : Env) : bindAll env (eraseAll ds) = bindAll env ds := by
  induction ds generalizing env with
  | nil => rfl
  | cons d ds ih =>
    rw [List.forall_mem_cons] at hs
    rw [eraseAll, bindAll, bindAll, hs.1.bind_erase, extend_erase, ih hs.2]

theorem nameErrorsAll_eraseAll (env : Env) :
    nameErrorsAll env (eraseAll ds) = nameErrorsAll env ds := by
  induction ds generalizing env with
  | nil => rfl
  | cons d ds ih =>
    rw [List.forall_mem_cons] at hs
    rw [eraseAll, nameErrorsAll, nameErrorsAll, hs.1.nameErrors_erase, extend_erase, ih hs.2]

end Decl

namespace Routine

variable {f : Routine} (hs : ∀ d ∈ f.decls, d.Forgets) (env : Env)
include hs

theorem erase_bindInner_of : (f.bindInner env).erase = f.erase := by
  obtain ⟨name, params, ret, decls, body, line, offset⟩ := f
  simp only [bindInner, erase, map_erase_placeParams, Decl.eraseAll_bindAll hs, Expr.erase_bind]

theorem bindInner_erase_of : f.erase.bindInner env = { f.bindInner env with offset := none } := by
  obtain ⟨name, params, ret, decls, body, line, offset⟩ := f
  simp only [bindInner, erase, placeParams_erase, Env.enterRoutine, Env.withParams_erase,
    Decl.bindAll_eraseAll hs, Decl.extendAll_erase, Expr.bind_erase]

theorem innerErrors_erase_of : f.erase.innerErrors env = f.innerErrors env := by
  obtain ⟨name, params, ret, decls, body, line, offset⟩ := f
  simp only [innerErrors, erase, Env.enterRoutine, Env.withParams_erase, Env.paramErrors_erase,
    Decl.nameErrorsAll_eraseAll hs, Decl.extendAll_erase, Expr.nameErrors_erase]

end Routine

theorem Routine.erase_offset (f : Routine) (offset : Option Int) :
    Routine.erase { f with offset := offset } = f.erase := by
  cases f
  rfl

theorem Decl.forgets (d : Decl) : d.Forgets := by
  induction d using Decl.ind with
  | var v =>
    refine ⟨fun env => ?_, fun env => ?_, fun env => ?_⟩
    · simp only [Decl.bind, Decl.erase, Expr.erase_bind]
    · simp only [Decl.bind, Decl.erase, Expr.bind_erase]
    · simp only [Decl.nameErrors, Decl.erase, Expr.nameErrors_erase]
  | fn f hf =>
    have hextend : ∀ env, Decl.extend env (.fn f.erase) = Decl.extend env (.fn f) := fun env =>
      Decl.extend_erase env (.fn f)
    refine ⟨fun env => ?_, fun env => ?_, fun env => ?_⟩
    · rw [Decl.bind, Decl.erase, Routine.erase_offset, Routine.erase_bindInner_of hf, Decl.erase]
    · rw [Decl.erase, Decl.bind, hextend, Routine.bindInner_erase_of hf, Decl.bind]
    · rw [Decl.erase, Decl.nameErrors, hextend, Routine.innerErrors_erase_of hf, Decl.nameErrors]
      obtain ⟨name, params, ret, decls, body, line, offset⟩ := f
      simp only [Routine.erase, Env.signatureErrors_erase]

namespace Routine

variable (f : Routine) (env : Env)

theorem erase_bindInner : (f.bindInner env).erase = f.erase :=
  erase_bindInner_of (fun d _ => d.forgets) env

theorem bindInner_erase : f.erase.bindInner env = { f.bindInner env with offset := none } :=
  bindInner_erase_of (fun d _ => d.forgets) env

theorem innerErrors_erase : f.erase.innerErrors env = f.innerErrors env :=
  innerErrors_erase_of (fun d _ => d.forgets) env

end Routine

/-! ### Classes -/

namespace Layout

variable (l : Layout) (level : Nat)

theorem addFields_erase (fs : List TypedName) :
    l.addFields level (fs.map TypedName.erase) = l.addFields level fs := by
  rw [addFields, List.foldl_map]
  rfl

theorem addMethods_erase (ms : List Routine) :
    l.addMethods level (ms.map Routine.erase) = l.addMethods level ms := by
  rw [addMethods, List.foldl_map]
  simp only [Routine.name_erase, Routine.signature_erase]
  rfl

theorem map_erase_placeFields (fs : List TypedName) :
    (l.placeFields level fs).map TypedName.erase = fs.map TypedName.erase := by
  induction fs generalizing l with
  | nil => rfl
  | cons f fs ih =>
    rw [placeFields, List.map_cons, List.map_cons, ih]
    rfl

theorem placeFields_erase (fs : List TypedName) :
    l.placeFields level (fs.map TypedName.erase) = l.placeFields level fs := by
  induction fs generalizing l with
  | nil => rfl
  | cons f fs ih =>
    rw [List.map_cons, placeFields, placeFields, ih]
    rfl

theorem map_erase_placeMethods (ms : List Routine) :
    (l.placeMethods level ms).map Routine.erase = ms.map Routine.erase := by
  induction ms generalizing l with
  | nil => rfl
  | cons m ms ih => rw [placeMethods, List.map_cons, List.map_cons, ih, Routine.erase_offset]

/-- The methods of a class are given their places before their names are bound. -/
theorem map_bindInner_placeMethods_erase (env : Env) (ms : List Routine) :
    (l.placeMethods level (ms.map Routine.erase)).map (Routine.bindInner env) =
      (l.placeMethods level ms).map (Routine.bindInner env) := by
  induction ms generalizing l with
  | nil => rfl
  | cons m ms ih =>
    rw [List.map_cons, placeMethods, placeMethods, List.map_cons, List.map_cons,
      Routine.bindInner_offset, Routine.bindInner_offset, Routine.bindInner_erase,
      Routine.name_erase, Routine.signature_erase, ih]

end Layout

theorem Env.fieldErrors_erase (env : Env) (cls : String) (level : Nat) (declared : List String)
    (l : Layout) (fs : List TypedName) :
    env.fieldErrors cls level declared l (fs.map TypedName.erase) =
      env.fieldErrors cls level declared l fs := by
  induction fs generalizing declared l with
  | nil => rfl
  | cons f fs ih =>
    rw [List.map_cons, fieldErrors, fieldErrors, ih]
    rfl

theorem Env.methodErrors_erase (env : Env) (cls : String) (level : Nat) (declared : List String)
    (l : Layout) (ms : List Routine) :
    env.methodErrors cls level declared l (ms.map Routine.erase) =
      env.methodErrors cls level declared l ms := by
  induction ms generalizing declared l with
  | nil => rfl
  | cons m ms ih =>
    rw [List.map_cons, methodErrors, methodErrors, ih]
    obtain ⟨name, params, ret, decls, body, line, offset⟩ := m
    simp only [Routine.erase, Env.signatureErrors_erase, Routine.signature, map_ty_erase]

namespace ClassDecl

variable (env : Env) (c : ClassDecl)

@[simp] theorem inherited_erase : c.erase.inherited env = c.inherited env := rfl

@[simp] theorem fieldLayout_erase : c.erase.fieldLayout env = c.fieldLayout env :=
  Layout.addFields_erase _ _ _

@[simp] theorem layout_erase : c.erase.layout env = c.layout env := by
  rw [layout, fieldLayout_erase]
  exact Layout.addMethods_erase _ _ _

@[simp] theorem ownEntry_erase : c.erase.ownEntry env = c.ownEntry env := by
  rw [ownEntry, layout_erase, ownEntry]

@[simp] theorem extend_erase : c.erase.extend env = c.extend env := by
  rw [extend, layout_erase, ownEntry_erase]
  rfl

@[simp] theorem methodEnv_erase : c.erase.methodEnv env = c.methodEnv env := by
  rw [methodEnv, extend_erase, layout_erase, methodEnv]

theorem erase_bind : (c.bind env).erase = c.erase := by
  simp only [ClassDecl.bind, erase, List.map_map, Layout.map_erase_placeFields]
  congr 1
  rw [← Layout.map_erase_placeMethods (c.fieldLayout env) (innerLevel env) c.methods]
  exact List.map_congr_left fun m _ => m.erase_bindInner _

/-- Of all that is erased, the entry of the superclass is what name resolution may keep. -/
theorem bind_eq : c.bind env = { c.erase.bind env with
    superEntry := (c.superclass.bind env.classes.entry?).or c.superEntry } := by
  simp only [ClassDecl.bind, inherited_erase, fieldLayout_erase, methodEnv_erase, ownEntry_erase]
  simp only [erase, Layout.placeFields_erase, Layout.map_bindInner_placeMethods_erase]

theorem nameErrors_erase : c.erase.nameErrors env = c.nameErrors env := by
  have hmembers : c.erase.memberErrors env = c.memberErrors env := by
    rw [memberErrors, inherited_erase, fieldLayout_erase]
    simp only [erase, Env.fieldErrors_erase, Env.methodErrors_erase, List.map_map]
    rfl
  rw [nameErrors, hmembers, methodEnv_erase, nameErrors]
  congr 1
  rw [erase, List.flatMap_map]
  exact List.flatMap_congr fun m _ => m.innerErrors_erase _

theorem extendAll_erase (cs : List ClassDecl) :
    extendAll env (cs.map erase) = extendAll env cs := by
  rw [extendAll, List.foldl_map]
  simp only [extend_erase]
  rfl

theorem map_erase_bindAll (cs : List ClassDecl) : (bindAll env cs).map erase = cs.map erase := by
  induction cs generalizing env with
  | nil => rfl
  | cons c cs ih => rw [bindAll, List.map_cons, List.map_cons, erase_bind, ih]

theorem nameErrorsAll_erase (cs : List ClassDecl) :
    nameErrorsAll env (cs.map erase) = nameErrorsAll env cs := by
  induction cs generalizing env with
  | nil => rfl
  | cons c cs ih =>
    rw [List.map_cons, nameErrorsAll, nameErrorsAll, nameErrors_erase, extend_erase, ih]

/-- The environment after a class does not depend on what has been written into the class. -/
theorem extend_bind (env' : Env) : (c.bind env').extend env = c.extend env := by
  rw [← extend_erase, erase_bind, extend_erase]

/-- What a class has kept, it keeps. -/
theorem bind_bind : (c.bind env).bind env = c.bind env := by
  have hkept : (c.bind env).bind env = { c.erase.bind env with
      superEntry := (c.superclass.bind env.classes.entry?).or
        ((c.superclass.bind env.classes.entry?).or c.superEntry) } := by
    rw [bind_eq, erase_bind]
    rfl
  rw [hkept, ← Option.or_assoc, Option.or_self, ← bind_eq]

theorem bindAll_bindAll (cs : List ClassDecl) : bindAll env (bindAll env cs) = bindAll env cs := by
  induction cs generalizing env with
  | nil => rfl
  | cons c cs ih => rw [bindAll, bindAll, bind_bind, extend_bind, ih]

end ClassDecl

/-! ### Programs -/

namespace Program

variable (env : Env) (p : Program)

@[simp] theorem classes_erase : p.erase.classes = p.classes.map ClassDecl.erase := by
  cases p <;> rfl

@[simp] theorem decls_erase : p.erase.decls = Decl.eraseAll p.decls := by
  cases p <;> rfl

@[simp] theorem main_erase : p.erase.main = p.main.erase := by
  cases p <;> rfl

@[simp] theorem declEnv_erase : p.erase.declEnv env = p.declEnv env := by
  rw [declEnv, classes_erase, ClassDecl.extendAll_erase, declEnv]

@[simp] theorem mainEnv_erase : p.erase.mainEnv env = p.mainEnv env := by
  rw [mainEnv, declEnv_erase, decls_erase, Decl.extendAll_erase, mainEnv]

theorem erase_bindIn : (p.bindIn env).erase = p.erase := by
  cases p with
  | body main => rw [bindIn, erase, erase, Expr.erase_bind]
  | letIn classes decls main =>
    rw [bindIn, erase, erase, ClassDecl.map_erase_bindAll, Expr.erase_bind,
      Decl.eraseAll_bindAll fun d _ => d.forgets]

theorem nameErrorsIn_erase : p.erase.nameErrorsIn env = p.nameErrorsIn env := by
  rw [nameErrorsIn, classes_erase, decls_erase, main_erase, declEnv_erase, mainEnv_erase,
    ClassDecl.nameErrorsAll_erase, Decl.nameErrorsAll_eraseAll fun d _ => d.forgets,
    Expr.nameErrors_erase, nameErrorsIn]

theorem nameErrors_erase : p.erase.nameErrors = p.nameErrors := nameErrorsIn_erase .empty p

variable {p} {q : Program}

/-- Where names are declared does not depend on what is erased. -/
theorem envs_congr (h : p.erase = q.erase) :
    p.declEnv env = q.declEnv env ∧ p.mainEnv env = q.mainEnv env := by
  rw [← declEnv_erase, ← mainEnv_erase, h, declEnv_erase, mainEnv_erase]
  exact ⟨rfl, rfl⟩

theorem decls_bindIn : (p.bindIn env).decls = Decl.bindAll (p.declEnv env) p.decls := by
  cases p <;> rfl

theorem main_bindIn : (p.bindIn env).main = p.main.bind (p.mainEnv env) := by
  cases p <;> rfl

/-- Classes apart, a bound program does not depend on what was erased. -/
theorem bindIn_congr (h : p.erase = q.erase) :
    (p.bindIn env).decls = (q.bindIn env).decls ∧ (p.bindIn env).main = (q.bindIn env).main := by
  have hdecls : Decl.eraseAll p.decls = Decl.eraseAll q.decls := by
    rw [← decls_erase, h, decls_erase]
  have hmain : p.main.erase = q.main.erase := by rw [← main_erase, h, main_erase]
  obtain ⟨hdecl, hmainEnv⟩ := envs_congr env h
  rw [decls_bindIn, decls_bindIn, main_bindIn, main_bindIn, hdecl, hmainEnv]
  constructor
  · rw [← Decl.bindAll_eraseAll fun d _ => d.forgets, hdecls,
      Decl.bindAll_eraseAll fun d _ => d.forgets]
  · rw [← Expr.bind_erase, hmain, Expr.bind_erase]

variable (p)

theorem bindIn_bindIn : (p.bindIn env).bindIn env = p.bindIn env := by
  obtain ⟨hdecls, hmain⟩ := bindIn_congr env (erase_bindIn env p)
  cases p with
  | body main => exact congrArg body hmain
  | letIn classes decls main =>
    have hclasses : ((letIn classes decls main).bindIn env).bindIn env =
        letIn (ClassDecl.bindAll (env.enter .empty) (ClassDecl.bindAll (env.enter .empty) classes))
          (((letIn classes decls main).bindIn env).bindIn env).decls
          (((letIn classes decls main).bindIn env).bindIn env).main := rfl
    rw [hclasses, hdecls, hmain, ClassDecl.bindAll_bindAll]
    rfl

/-- **A tree may be resolved as often as one likes.**  Whatever has been written into a tree before
its names are resolved, resolving them once more finds the same errors, in the same order, and
leaves the tree as it is. -/
theorem resolve_idempotent : p.bind.bind = p.bind ∧ p.bind.nameErrors = p.nameErrors := by
  refine ⟨bindIn_bindIn .empty p, ?_⟩
  rw [← nameErrors_erase, bind, erase_bindIn, nameErrors_erase]

end Program

end ObjectLang
